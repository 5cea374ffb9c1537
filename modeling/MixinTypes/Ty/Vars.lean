import MixinTypes.Ty.Subst

/-!
# Type parameters inside a type

`vars` lists the type parameters that a type mentions. Main statement: `subst_eq_subst_iff`, two
substitutions that agree on the pseudo-types make the same of a type exactly when they agree on its
parameters. What `Subst.bind` makes of a parameter follows from the pair that the parameter is in
(`var_bind_of_mem_zip`), when no parameter is repeated.
-/

namespace MixinTypes

namespace Ty

mutual

/-- The type parameters that a type mentions, as written from left to right. -/
def vars : Ty → List String
  | .var name => [name]
  | .named _ args => varsList args
  | .union ts => varsList ts
  | .inter ts => varsList ts
  | _ => []

/-- The type parameters that a list of types mentions. -/
def varsList : List Ty → List String
  | [] => []
  | t :: ts => vars t ++ varsList ts

end

@[simp] theorem varsList_eq (ts : List Ty) : varsList ts = ts.flatMap vars := by
  induction ts with
  | nil => rfl
  | cons t ts ih => simp [varsList, ih]

theorem map_subst_eq_map_subst_iff {σ τ : Subst} {ts : List Ty}
    (h : ∀ t ∈ ts, t.subst σ = t.subst τ ↔ ∀ x ∈ t.vars, σ.var x = τ.var x) :
    ts.map (subst σ) = ts.map (subst τ) ↔ ∀ x ∈ ts.flatMap vars, σ.var x = τ.var x := by
  rw [List.map_inj_left, List.forall_mem_flatMap]
  exact forall₂_congr h

theorem subst_eq_subst_iff {σ τ : Subst} (self : σ.self = τ.self) (inst : σ.inst = τ.inst)
    (cls : σ.cls = τ.cls) (t : Ty) :
    t.subst σ = t.subst τ ↔ ∀ x ∈ t.vars, σ.var x = τ.var x := by
  induction t using Ty.induction with
  | named name args ih => simpa [subst, vars] using map_subst_eq_map_subst_iff ih
  | union ts ih => simpa [subst, vars] using map_subst_eq_map_subst_iff ih
  | inter ts ih => simpa [subst, vars] using map_subst_eq_map_subst_iff ih
  | _ => simp [subst, vars, self, inst, cls]

end Ty

namespace Subst

/-- Binding leaves the pseudo-types alone. -/
theorem bind_eq (σ : Subst) (params : List String) (args : List Ty) :
    σ.bind params args = { σ with var := (σ.bind params args).var } := by
  unfold bind
  induction params.zip args generalizing σ with
  | nil => rfl
  | cons e es ih => exact ih (σ.bindOne e.1 e.2)

/-- A substitution that leaves the pseudo-types as they are. -/
structure Plain (σ : Subst) : Prop where
  self : σ.self = .self
  inst : σ.inst = .inst
  cls : σ.cls = .cls

namespace Plain

variable {σ τ : Subst}

theorem bind (hσ : σ.Plain) (params : List String) (args : List Ty) : (σ.bind params args).Plain := by
  rw [bind_eq]
  exact ⟨hσ.self, hσ.inst, hσ.cls⟩

theorem id_bind (params : List String) (args : List Ty) : (Subst.id.bind params args).Plain :=
  bind ⟨rfl, rfl, rfl⟩ params args

theorem without (hσ : σ.Plain) (names : List String) : (σ.without names).Plain :=
  ⟨hσ.self, hσ.inst, hσ.cls⟩

theorem andThen (hσ : σ.Plain) (hτ : τ.Plain) : (σ.andThen τ).Plain where
  self := (congrArg (Ty.subst τ) hσ.self).trans hτ.self
  inst := (congrArg (Ty.subst τ) hσ.inst).trans hτ.inst
  cls := (congrArg (Ty.subst τ) hσ.cls).trans hτ.cls

theorem subst_eq_subst_iff (hσ : σ.Plain) (hτ : τ.Plain) (t : Ty) :
    t.subst σ = t.subst τ ↔ ∀ x ∈ t.vars, σ.var x = τ.var x :=
  t.subst_eq_subst_iff (hσ.self.trans hτ.self.symm) (hσ.inst.trans hτ.inst.symm)
    (hσ.cls.trans hτ.cls.symm)

end Plain

variable {σ : Subst} {params : List String} {args : List Ty}

/-- Only the parameters that are bound change. -/
theorem var_bind_of_not_mem {x : String} (hx : x ∉ params) :
    (σ.bind params args).var x = σ.var x := by
  induction params generalizing σ args with
  | nil => rfl
  | cons p params ih =>
    rw [List.mem_cons, not_or] at hx
    cases args with
    | nil => rfl
    | cons a args => exact (ih hx.2).trans (if_neg hx.1)

/-- A parameter stands for the argument at its place. -/
theorem var_bind_of_mem_zip {x : String} {a : Ty} (hn : params.Nodup)
    (h : (x, a) ∈ params.zip args) : (σ.bind params args).var x = a := by
  induction params generalizing σ args with
  | nil => cases h
  | cons p params ih =>
    obtain ⟨hp, hn⟩ := List.nodup_cons.mp hn
    cases args with
    | nil => cases h
    | cons b args =>
      rcases List.mem_cons.mp h with h | h
      · cases h
        exact (var_bind_of_not_mem hp).trans (if_pos rfl)
      · exact ih hn h

/-- With as many arguments as parameters, every parameter has an argument. -/
theorem exists_mem_zip {x : String} (hlength : args.length = params.length) (hx : x ∈ params) :
    ∃ a, (x, a) ∈ params.zip args := by
  obtain ⟨k, hk, rfl⟩ := List.getElem_of_mem hx
  refine ⟨args[k], List.mem_iff_getElem.mpr ⟨k, by simp; omega, ?_⟩⟩
  simp

end Subst

end MixinTypes
