import MixinTypes.Ty.Parts
import MixinTypes.Ty.Subst

/-!
# Concrete types

A type is concrete when none of the pseudo-types stands in it, at any depth: what it means does not depend on
a receiver. Main statement: `concrete_subst`, a substitution that puts concrete types in place of the
pseudo-types and the parameters makes every type concrete.
-/

namespace MixinTypes

namespace Ty

/-- Whether the type is one of the three pseudo-types. -/
def isPseudo : Ty → Bool
  | .self | .inst | .cls => true
  | _ => false

/-- No pseudo-type stands in the type, at any depth. -/
def Concrete (t : Ty) : Prop := ∀ s ∈ t.parts, s.isPseudo = false

instance (t : Ty) : Decidable t.Concrete :=
  inferInstanceAs (Decidable (∀ s ∈ t.parts, s.isPseudo = false))

theorem concrete_iff {t : Ty} :
    t.Concrete ↔ t.isPseudo = false ∧ ∀ c ∈ t.children, c.Concrete := by
  unfold Concrete
  rw [parts_eq, List.forall_mem_cons, List.forall_mem_flatMap]

theorem concrete_any : any.Concrete := by decide

theorem concrete_var (name : String) : (var name).Concrete :=
  List.forall_mem_singleton.mpr rfl

theorem concrete_named {n : Nominal} {args : List Ty} (h : ∀ t ∈ args, t.Concrete) :
    (named n args).Concrete :=
  concrete_iff.mpr ⟨rfl, h⟩

end Ty

theorem Subst.concrete_forReceiver (p : Path) {args : List Ty} (hargs : ∀ t ∈ args, t.Concrete)
    {receiver : Ty} (hreceiver : receiver.Concrete) : (forReceiver p args receiver).Each Ty.Concrete where
  var := Ty.concrete_var
  self := hreceiver
  inst := Ty.concrete_named hargs
  cls := Ty.concrete_named (List.forall_mem_nil _)

theorem Ty.concrete_subst {σ : Subst} (h : σ.Each Concrete) (t : Ty) : (t.subst σ).Concrete := by
  induction t using Ty.induction with
  | any => exact concrete_any
  | var name => exact h.var name
  | self => exact h.self
  | inst => exact h.inst
  | cls => exact h.cls
  | named name args ih | union args ih | inter args ih =>
    refine concrete_iff.mpr ⟨rfl, ?_⟩
    change ∀ c ∈ substList σ args, c.Concrete
    rw [substList_eq]
    exact List.forall_mem_map.mpr ih

end MixinTypes
