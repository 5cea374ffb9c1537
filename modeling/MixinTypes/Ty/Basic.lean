import MixinTypes.Nominal

/-!
# Types

The types that signatures speak of: `any`, variables, the three pseudo-types that stand for the
receiver, nominal types with arguments, unions and intersections. Unions and intersections are kept
as written, so they may be empty or have one member.

`Ty.induction` is the induction principle with a hypothesis for every member of a list.
-/

namespace MixinTypes

/-- A type as written in a signature or inferred for an expression. -/
inductive Ty where
  /-- Compatible with everything, in both directions. -/
  | any
  /-- A type parameter. -/
  | var (name : String)
  /-- The receiver's own type. -/
  | self
  /-- The type of instances of the receiver. -/
  | inst
  /-- The type of the receiver's class object. -/
  | cls
  | named (name : Nominal) (args : List Ty)
  | union (members : List Ty)
  | inter (members : List Ty)

namespace Ty

instance : Inhabited Ty := ⟨.any⟩

/-- The named type of the instances of the declaration at `p`. -/
abbrev ofPath (p : Path) (args : List Ty) : Ty := .named ⟨.instances, p⟩ args

def isAny : Ty → Bool
  | .any => true
  | _ => false

/-- Induction over types, with a hypothesis for each member of a list. -/
theorem induction {motive : Ty → Prop} (any : motive .any) (var : ∀ name, motive (.var name))
    (self : motive .self) (inst : motive .inst) (cls : motive .cls)
    (named : ∀ name args, (∀ t ∈ args, motive t) → motive (.named name args))
    (union : ∀ ts, (∀ t ∈ ts, motive t) → motive (.union ts))
    (inter : ∀ ts, (∀ t ∈ ts, motive t) → motive (.inter ts)) : ∀ t, motive t
  | .any => any
  | .var name => var name
  | .self => self
  | .inst => inst
  | .cls => cls
  | .named name args =>
    named name args fun t _ => induction any var self inst cls named union inter t
  | .union ts => union ts fun t _ => induction any var self inst cls named union inter t
  | .inter ts => inter ts fun t _ => induction any var self inst cls named union inter t

/-! ## Decidable equality -/

mutual

/-- Whether two types are the same tree. -/
def same : Ty → Ty → Bool
  | .any, .any | .self, .self | .inst, .inst | .cls, .cls => true
  | .var a, .var b => a == b
  | .named m as, .named n bs => m == n && sameList as bs
  | .union as, .union bs => sameList as bs
  | .inter as, .inter bs => sameList as bs
  | _, _ => false

/-- Whether two lists hold the same types in the same order. -/
def sameList : List Ty → List Ty → Bool
  | [], [] => true
  | a :: as, b :: bs => same a b && sameList as bs
  | _, _ => false

end

theorem sameList_eq_true_iff {as : List Ty} (h : ∀ a ∈ as, ∀ b, same a b = true ↔ a = b)
    (bs : List Ty) : sameList as bs = true ↔ as = bs := by
  induction as generalizing bs with
  | nil => cases bs <;> simp [sameList]
  | cons a as ih =>
    cases bs with
    | nil => simp [sameList]
    | cons b bs =>
      simp [sameList, h a (List.mem_cons_self ..),
        ih (fun x hx => h x (List.mem_cons_of_mem _ hx))]

theorem same_eq_true_iff (a b : Ty) : same a b = true ↔ a = b := by
  induction a using Ty.induction generalizing b with
  | named m as ih => cases b <;> simp [same, sameList_eq_true_iff ih]
  | union as ih => cases b <;> simp [same, sameList_eq_true_iff ih]
  | inter as ih => cases b <;> simp [same, sameList_eq_true_iff ih]
  | _ => cases b <;> simp [same]

instance : DecidableEq Ty := fun a b => decidable_of_iff _ (same_eq_true_iff a b)

end Ty

end MixinTypes
