import MixinTypes.Proofs.Checking.Replay

/-!
# What is known is kept

Checking more of a program takes nothing back: neither the type of a variable nor a fault, and a node that has a
type goes on having one. So the first assignment to a variable that is finished fixes its type.

1. A trace binds each variable once: what is bound keeps its type, and what is not gets that of the first assignment
   (`get?_localsAfter`).
2. When the nodes of a trace have different numbers, the types in it are those in the end (`Replays.typeOf?_of_mem`),
   and each of them is what it had to be at its moment. So the trace fixes each variable (`Replays.fixes`).
3. Walking a node replays such a trace, which gives `walk_adds`.
-/

namespace MixinTypes

variable {σ : Type}

namespace Checking

variable {c c' : Checking σ} {trace xs ys : List (Node × Ty)} {x : String} {t : Ty} {n : Node}

/-! ## Variables and nodes along a trace -/

/-- The types that assignments of a trace have, under the names of the variables. -/
def assignments (trace : List (Node × Ty)) : List (String × Ty) :=
  trace.filterMap fun e => e.1.assigned?.map fun name => (name, e.2)

theorem mem_assignments (h : (n, t) ∈ trace) (hn : n.assigned? = some x) :
    (x, t) ∈ assignments trace :=
  List.mem_filterMap.mpr ⟨(n, t), h, by rw [hn]; rfl⟩

theorem valueIn?_assignments_eq_none (h : ∀ e ∈ trace, e.1.assigned? ≠ some x) :
    Table.valueIn? x (assignments trace) = none := by
  refine Table.valueIn?_eq_none_iff.mpr fun hmem => ?_
  obtain ⟨⟨_, t⟩, hpair, rfl⟩ := List.mem_map.mp hmem
  obtain ⟨e, he, heq⟩ := List.mem_filterMap.mp hpair
  obtain ⟨name, hname, hsame⟩ := Option.map_eq_some_iff.mp heq
  cases hsame
  exact h e he hname

theorem get?_bindFirst (locals : Table String Ty) (e : Node × Ty) (x : String) :
    (bindFirst locals e).get? x = (locals.get? x).or (Table.valueIn? x (assignments [e])) := by
  obtain ⟨n, t⟩ := e
  cases hn : n.assigned? with
  | none => simp [bindFirst, assignments, hn, Table.valueIn?]
  | some name =>
    by_cases hx : name = x
    · subst hx
      cases hget : locals.get? name <;> simp [bindFirst, assignments, hn, Table.valueIn?, Table.contains, hget]
    · cases hget : locals.get? name <;>
        simp [bindFirst, assignments, hn, Table.valueIn?, Table.contains, hget, hx]

/-- A variable keeps its type, and one that has none gets that of the first assignment to it. -/
theorem get?_localsAfter (locals : Table String Ty) (trace : List (Node × Ty)) (x : String) :
    (localsAfter locals trace).get? x = (locals.get? x).or (Table.valueIn? x (assignments trace)) := by
  induction trace generalizing locals with
  | nil => exact Option.or_none.symm
  | cons e trace ih =>
    have hcons : assignments (e :: trace) = assignments [e] ++ assignments trace :=
      List.filterMap_append (l := [e])
    rw [hcons, Table.valueIn?_append, ← Option.or_assoc, ← get?_bindFirst]
    exact ih (bindFirst locals e)

/-- The last type that is noted under a number counts. -/
theorem get?_typesAfter (types : Table Nat Ty) (trace : List (Node × Ty)) (i : Nat) :
    (typesAfter types trace).get? i =
      (Table.valueIn? i (trace.map fun e => (e.1.id, e.2)).reverse).or (types.get? i) :=
  Table.get?_foldl_insert ..

/-! ## What a trace tells in the end -/

theorem exists_split {before after : List Node} (h : trace.map Prod.fst = before ++ n :: after) :
    ∃ xs t ys, trace = xs ++ (n, t) :: ys ∧ xs.map Prod.fst = before := by
  obtain ⟨xs, rest, rfl, hxs, hrest⟩ := List.map_eq_append_iff.mp h
  obtain ⟨⟨_, t⟩, ys, rfl, rfl, -⟩ := List.map_eq_cons_iff.mp hrest
  exact ⟨xs, t, ys, rfl, hxs⟩

/-- A variable without a type still has none as long as no assignment to it is finished. -/
theorem get?_localsAfter_eq_none {locals : Table String Ty} (hx : locals.get? x = none)
    (h : ∀ n ∈ trace.map Prod.fst, n.assigned? ≠ some x) : (localsAfter locals trace).get? x = none := by
  rw [get?_localsAfter, hx, Option.none_or]
  exact valueIn?_assignments_eq_none fun e he => h e.1 (List.mem_map_of_mem he)

/-- A variable has a type once an assignment to it is finished. -/
theorem exists_get?_localsAfter {locals : Table String Ty}
    (h : (∃ t, locals.get? x = some t) ∨ ∃ n ∈ trace.map Prod.fst, n.assigned? = some x) :
    ∃ t, (localsAfter locals trace).get? x = some t := by
  rw [get?_localsAfter]
  rcases h with ⟨t, ht⟩ | ⟨_, hn, hassigned⟩
  · exact ⟨t, by rw [ht, Option.some_or]⟩
  · obtain ⟨⟨n, u⟩, he, rfl⟩ := List.mem_map.mp hn
    obtain ⟨v, hv⟩ := Table.exists_valueIn?_iff.mpr (List.mem_map_of_mem (mem_assignments he hassigned))
    rw [hv]
    cases locals.get? x <;> simp

namespace Replays

theorem get?_locals (h : Replays (xs ++ ys) c c') (x : String) :
    c'.locals.get? x = ((localsAfter c.locals xs).get? x).or (Table.valueIn? x (assignments ys)) := by
  rw [h.locals, localsAfter_append, get?_localsAfter]

theorem get?_locals_of_some (h : Replays (xs ++ ys) c c') (hx : (localsAfter c.locals xs).get? x = some t) :
    c'.locals.get? x = some t := by
  rw [h.get?_locals, hx, Option.some_or]

/-- The type of an assignment is that of the variable from then on. -/
theorem get?_locals_of_assign {site : Site} {value : Node}
    (h : Replays (xs ++ (.assign site x value, t) :: ys) c c') : c'.locals.get? x = some t := by
  have hfits := h.fits xs _ ys rfl
  rw [Fits] at hfits
  cases hx : (localsAfter c.locals xs).get? x with
  | none =>
    rw [h.get?_locals, hx, Option.none_or]
    exact if_pos rfl
  | some known =>
    rw [hx] at hfits
    obtain rfl : t = known := hfits
    exact h.get?_locals_of_some hx

theorem typeOf?_last (h : Replays (trace ++ [(n, t)]) c c') : c'.typeOf? n = some t := by
  rw [typeOf?, h.types, get?_typesAfter, List.map_append, List.map_singleton, List.reverse_concat]
  simp [Table.valueIn?]

/-- A type that is noted is not overwritten when the nodes have different numbers. -/
theorem typeOf?_of_mem (h : Replays trace c c') (hn : ((trace.map Prod.fst).map Node.id).Nodup)
    (he : (n, t) ∈ trace) : c'.typeOf? n = some t := by
  have hkeys : ((trace.map fun e => (e.1.id, e.2)).reverse.map Prod.fst).Nodup := by
    rw [List.map_reverse, (List.reverse_perm _).nodup_iff, List.map_map]
    rwa [List.map_map] at hn
  have hmem : (n.id, t) ∈ (trace.map fun e => (e.1.id, e.2)).reverse :=
    List.mem_reverse.mpr (List.mem_map.mpr ⟨(n, t), he, rfl⟩)
  rw [typeOf?, h.types, get?_typesAfter, Table.valueIn?_of_mem hkeys hmem, Option.some_or]

theorem fixes (h : Replays trace c c') (hn : ((trace.map Prod.fst).map Node.id).Nodup) (x : String) :
    c.Fixes c' (trace.map Prod.fst) x where
  assign site value hmem := by
    obtain ⟨before, after, horder⟩ := List.append_of_mem hmem
    obtain ⟨xs, t, ys, rfl, -⟩ := exists_split horder
    exact ⟨t, h.get?_locals_of_assign, h.typeOf?_of_mem hn (List.mem_append_right xs (List.mem_cons_self ..))⟩
  first before site value after horder hx hnone := by
    obtain ⟨xs, t, ys, rfl, rfl⟩ := exists_split horder
    have hfits := h.fits xs _ ys rfl
    rw [Fits, get?_localsAfter_eq_none hx hnone] at hfits
    have hvalue : (value, t) ∈ xs := List.mem_of_getLast? hfits
    rw [h.get?_locals_of_assign, h.typeOf?_of_mem hn (List.mem_append_left _ hvalue)]
  read before site after horder hsome := by
    obtain ⟨xs, t, ys, rfl, rfl⟩ := exists_split horder
    obtain ⟨known, hknown⟩ := exists_get?_localsAfter hsome
    have hfits := h.fits xs _ ys rfl
    rw [Fits, hknown, Option.getD_some] at hfits
    refine ⟨known, h.get?_locals_of_some hknown, ?_⟩
    rw [h.typeOf?_of_mem hn (List.mem_append_right xs (List.mem_cons_self ..)), hfits]
  unset before site after horder hx hnone := by
    obtain ⟨xs, t, ys, rfl, rfl⟩ := exists_split horder
    have hfits := h.fits xs _ ys rfl
    rw [Fits, get?_localsAfter_eq_none hx hnone, Option.getD_none] at hfits
    rw [h.typeOf?_of_mem hn (List.mem_append_right xs (List.mem_cons_self ..)), hfits]

end Replays

end Checking

namespace Oracle

open Checking

/-- Whatever a checker has found out and whatever its oracle answers, walking a node keeps the types of the
variables and the faults, leaves no node without a type that had one, and notes the type that comes out for the
node. If the nodes that are evaluated have different numbers, the first assignment to a variable that is finished
fixes its type: all assignments to it have that type in the end, and so have all reads of it, apart from those
before, which have `any`. -/
theorem walk_adds (o : Oracle σ) (host : Ty) (n : Node) (c : Checking σ) :
    let r := o.walk host n c
    (∀ x t, c.locals.get? x = some t → r.2.locals.get? x = some t) ∧ c.faults <+: r.2.faults ∧
      (∀ i ∈ c.types.keys, i ∈ r.2.types.keys) ∧ r.2.typeOf? n = some r.1 ∧
      ((n.walked.map Node.id).Nodup → ∀ x, c.Fixes r.2 n.finished x) := by
  intro r
  obtain ⟨trace, hnodes, hreplays⟩ := replays_walk o host n c
  have horder : (trace ++ [(n, r.1)]).map Prod.fst = n.finished := by
    rw [List.map_append, hnodes, Node.finished_eq]
    rfl
  refine ⟨fun x t hx => ?_, hreplays.faults, fun i hi => ?_, hreplays.typeOf?_last, fun hn x => ?_⟩
  · rw [hreplays.locals, get?_localsAfter, hx, Option.some_or]
  · rw [hreplays.types]
    exact (mem_keys_typesAfter ..).mpr (.inr hi)
  · have hdistinct : (n.finished.map Node.id).Nodup := (n.finished_perm_walked.map _).nodup_iff.mpr hn
    rw [← horder] at hdistinct ⊢
    exact hreplays.fixes hdistinct x

/-- An oracle for which each type is assignable to itself only, and which knows two conversions. -/
def conversions : Oracle Unit where
  assignable src dest _ := (src = dest, ())
  callee _ method _ :=
    let giving (name : String) : Overload := { Overload.permissive with returns := .ofPath ⟨[name], true⟩ [] }
    (if method = "to_i" then some (giving "Integer")
      else if method = "to_s" then some (giving "String") else none, ())

/-- The program `x; x = (x = to_i; to_s); x`. -/
def reassigning : Node :=
  let site (i : Nat) : Site := ⟨i, .nowhere⟩
  let inner : Node := .seq (site 3) [.assign (site 4) "x" (.call (site 5) none "to_i" []),
    .call (site 6) none "to_s" []]
  .seq (site 0) [.read (site 1) "x", .assign (site 2) "x" inner, .read (site 7) "x"]

/-- The assignment inside is finished first, and gives the variable its type. The one around it has that type,
too, and a fault; the read in front of both has `any`. -/
theorem walk_adds_reassigning :
    let c := conversions.check .any reassigning ()
    let integer := Ty.ofPath ⟨["Integer"], true⟩ []
    let string := Ty.ofPath ⟨["String"], true⟩ []
    (reassigning.walked.map Node.id).Nodup ∧ (Checking.start ()).Fixes c reassigning.finished "x" ∧
      reassigning.finished.map Node.id = [1, 5, 4, 6, 3, 2, 7, 0] ∧ c.locals.get? "x" = some integer ∧
      [1, 4, 3, 2, 7].map c.types.get? = [some .any, some integer, some string, some integer, some integer] ∧
      c.faults.map Fault.cause = [.incompatibleAssignment integer string] := by
  intro c integer string
  have hdistinct : (reassigning.walked.map Node.id).Nodup := by decide
  obtain ⟨-, -, -, -, hfixes⟩ := walk_adds conversions .any reassigning (.start ())
  exact ⟨hdistinct, hfixes hdistinct "x", by decide, by decide, by decide, by decide⟩

end Oracle

end MixinTypes
