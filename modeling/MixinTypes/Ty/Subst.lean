import MixinTypes.Ty.Basic

/-!
# Substitution

A substitution replaces type parameters and the three pseudo-types. It leaves a parameter that it
does not bind as it is. Main statements: `subst_id`, and `subst_subst` for two substitutions one
after the other.
-/

namespace MixinTypes

/-- What takes the place of each type parameter and of each pseudo-type. -/
structure Subst where
  var : String → Ty
  self : Ty
  inst : Ty
  cls : Ty

namespace Ty

mutual

/-- Replace the parameters and pseudo-types of a type. -/
def subst (σ : Subst) : Ty → Ty
  | .any => .any
  | .var name => σ.var name
  | .self => σ.self
  | .inst => σ.inst
  | .cls => σ.cls
  | .named name args => .named name (substList σ args)
  | .union ts => .union (substList σ ts)
  | .inter ts => .inter (substList σ ts)

/-- Replace the parameters and pseudo-types of every type of a list. -/
def substList (σ : Subst) : List Ty → List Ty
  | [] => []
  | t :: ts => subst σ t :: substList σ ts

end

@[simp] theorem substList_eq (σ : Subst) (ts : List Ty) : substList σ ts = ts.map (subst σ) := by
  induction ts with
  | nil => rfl
  | cons t ts ih => simp [substList, ih]

end Ty

namespace Subst

/-- The substitution that changes nothing. -/
def id : Subst := ⟨.var, .self, .inst, .cls⟩

/-- Let `name` stand for `t`. -/
def bindOne (σ : Subst) (name : String) (t : Ty) : Subst :=
  { σ with var := fun n => if n = name then t else σ.var n }

/-- Bind parameters to arguments pairwise. A repeated parameter takes its last argument; one
without an argument is not bound. -/
def bind (σ : Subst) (params : List String) (args : List Ty) : Subst :=
  (params.zip args).foldl (fun σ p => σ.bindOne p.1 p.2) σ

/-- Leave the parameters in `names` alone. -/
def without (σ : Subst) (names : List String) : Subst :=
  { σ with var := fun n => if n ∈ names then .var n else σ.var n }

/-- What the pseudo-types mean for a `receiver` that is an instance of the
declaration at `p` with arguments `args`. -/
def forReceiver (p : Path) (args : List Ty) (receiver : Ty) : Subst where
  var := .var
  self := receiver
  inst := .ofPath p args
  cls := .named ⟨.classObject true, p⟩ []

/-- First `σ`, then `τ`. -/
def andThen (σ τ : Subst) : Subst where
  var n := (σ.var n).subst τ
  self := σ.self.subst τ
  inst := σ.inst.subst τ
  cls := σ.cls.subst τ

@[simp] theorem without_id (names : List String) : id.without names = id := by
  simp [without, id]

/-- Whatever takes the place of a parameter or a pseudo-type has the property. -/
structure Each (P : Ty → Prop) (σ : Subst) : Prop where
  var : ∀ name, P (σ.var name)
  self : P σ.self
  inst : P σ.inst
  cls : P σ.cls

namespace Each

variable {P : Ty → Prop} {σ : Subst}

theorem bindOne (h : σ.Each P) (name : String) {t : Ty} (ht : P t) : (σ.bindOne name t).Each P := by
  refine ⟨fun n => ?_, h.self, h.inst, h.cls⟩
  change P (if n = name then t else σ.var n)
  split
  · exact ht
  · exact h.var n

theorem bind (h : σ.Each P) (params : List String) {args : List Ty} (hargs : ∀ t ∈ args, P t) :
    (σ.bind params args).Each P := by
  induction params generalizing σ args with
  | nil => exact h
  | cons p params ih =>
    cases args with
    | nil => exact h
    | cons a args =>
      obtain ⟨ha, hargs⟩ := List.forall_mem_cons.mp hargs
      exact ih (h.bindOne p ha) hargs

theorem without (h : σ.Each P) (hvar : ∀ n, P (.var n)) (names : List String) :
    (σ.without names).Each P := by
  refine ⟨fun n => ?_, h.self, h.inst, h.cls⟩
  change P (if n ∈ names then .var n else σ.var n)
  split
  · exact hvar n
  · exact h.var n

end Each

end Subst

namespace Ty

theorem subst_id (t : Ty) : t.subst .id = t := by
  induction t using Ty.induction with
  | named name args ih => simpa [subst] using (List.map_congr_left ih).trans (List.map_id' _)
  | union ts ih => simpa [subst] using (List.map_congr_left ih).trans (List.map_id' _)
  | inter ts ih => simpa [subst] using (List.map_congr_left ih).trans (List.map_id' _)
  | _ => rfl

theorem subst_subst (σ τ : Subst) (t : Ty) : (t.subst σ).subst τ = t.subst (σ.andThen τ) := by
  induction t using Ty.induction with
  | named name args ih => simpa [subst] using ih
  | union ts ih => simpa [subst] using ih
  | inter ts ih => simpa [subst] using ih
  | _ => rfl

end Ty

end MixinTypes
