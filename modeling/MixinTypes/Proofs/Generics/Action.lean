import MixinTypes.Interface.Basic

/-!
# Substitution is an action

To make one substitution after another in a type is to make a third one, which the two determine: what the
first puts in is itself subject to the second, also where it stands for a pseudo-type.

1. The third substitution is `Subst.andThen` (`composes_iff_eq`), and no other makes the same of every type
   (`forall_subst_subst_iff_eq`).
2. The substitution that replaces nothing leaves as it is whatever types stand in: formal parameters,
   overloads, methods with all they override, and interfaces. With that, `subst_acts` has both laws.
-/

namespace MixinTypes.Subst

variable {σ τ ρ : Subst}

/-- Something else takes the place of the parameter. -/
def Binds (σ : Subst) (x : String) : Prop := σ.var x ≠ .var x

/-- `ρ` is `σ` followed by `τ`: a parameter that `σ` binds stands for what `τ` makes of its type, any other
for the same as in `τ`, and a pseudo-type for what `τ` makes of what `σ` puts there. -/
structure Composes (σ τ ρ : Subst) : Prop where
  bound : ∀ x, σ.Binds x → ρ.var x = (σ.var x).subst τ
  unbound : ∀ x, ¬ σ.Binds x → ρ.var x = τ.var x
  self : ρ.self = σ.self.subst τ
  inst : ρ.inst = σ.inst.subst τ
  cls : ρ.cls = σ.cls.subst τ

/-- A parameter that is not bound goes through the first substitution as it is. -/
theorem var_andThen_of_not_binds {x : String} (h : ¬ σ.Binds x) : (σ.andThen τ).var x = τ.var x := by
  change (σ.var x).subst τ = τ.var x
  rw [Decidable.of_not_not h]
  rfl

theorem composes_andThen (σ τ : Subst) : σ.Composes τ (σ.andThen τ) where
  bound _ _ := rfl
  unbound _ h := var_andThen_of_not_binds h
  self := rfl
  inst := rfl
  cls := rfl

theorem Composes.eq (h : σ.Composes τ ρ) : ρ = σ.andThen τ := by
  have var : ρ.var = (σ.andThen τ).var := by
    funext x
    by_cases hx : σ.Binds x
    · exact h.bound x hx
    · exact (h.unbound x hx).trans (var_andThen_of_not_binds hx).symm
  obtain ⟨ρvar, ρself, ρinst, ρcls⟩ := ρ
  rw [andThen, mk.injEq]
  exact ⟨var, h.self, h.inst, h.cls⟩

theorem composes_iff_eq : σ.Composes τ ρ ↔ ρ = σ.andThen τ :=
  ⟨Composes.eq, fun h => h ▸ composes_andThen σ τ⟩

/-- Parameters and pseudo-types are types, so what is made of them tells substitutions apart. -/
theorem forall_subst_subst_iff_eq : (∀ t : Ty, (t.subst σ).subst τ = t.subst ρ) ↔ ρ = σ.andThen τ := by
  constructor
  · intro h
    obtain ⟨ρvar, ρself, ρinst, ρcls⟩ := ρ
    rw [andThen, mk.injEq]
    exact ⟨funext fun x => (h (.var x)).symm, (h .self).symm, (h .inst).symm, (h .cls).symm⟩
  · rintro rfl t
    exact t.subst_subst σ τ

/-- What is bound in the end is bound by one of the two. -/
theorem Binds.of_andThen {x : String} (h : (σ.andThen τ).Binds x) : σ.Binds x ∨ τ.Binds x := by
  by_cases hx : σ.Binds x
  · exact .inl hx
  · rw [Binds, var_andThen_of_not_binds hx] at h
    exact .inr h

/-- Two substitutions one after the other are one substitution, in types and in formal parameters; it binds no
more than they do, and it is the only one that makes the same of all types. The substitution that replaces
nothing changes nothing: neither types, formal parameters and overloads nor methods with what they override,
nor an interface that is given no arguments. -/
theorem subst_acts (σ τ : Subst) :
    (∃ ρ, σ.Composes τ ρ ∧ (∀ x, ρ.Binds x → σ.Binds x ∨ τ.Binds x) ∧
        ∀ f : Formals, (f.subst σ).subst τ = f.subst ρ) ∧
      (∀ ρ, σ.Composes τ ρ ↔ ∀ t : Ty, (t.subst σ).subst τ = t.subst ρ) ∧
      (∀ t : Ty, t.subst .id = t) ∧ (∀ f : Formals, f.subst .id = f) ∧
      (∀ o : Overload, o.subst .id = o) ∧ (∀ m : Method, m.subst .id = m) ∧
      ∀ i : Interface, i.instantiate [] .id = i := by
  refine ⟨⟨σ.andThen τ, composes_andThen σ τ, fun _ => Binds.of_andThen, Formals.subst_subst σ τ⟩,
    fun ρ => ?_, Ty.subst_id, Formals.subst_id, Overload.subst_id, Method.subst_id, Interface.instantiate_nil⟩
  exact composes_iff_eq.trans forall_subst_subst_iff_eq.symm

end MixinTypes.Subst
