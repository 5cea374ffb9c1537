import MixinTypes.World.Link

/-!
# Selecting an overload

A call on a receiver of a nominal type takes the first overload of the method, with parameters and
pseudo-types replaced for that receiver. A receiver of type `any` takes every call; no other type
has methods.
-/

namespace MixinTypes

/-- The overload that a call of `method` on a receiver of type `n` with `args` takes. -/
def Interface.select (i : Interface) (n : Nominal) (args : List Ty) (method : String) :
    Option Overload :=
  let instanceArgs := if n.facet = .instances then args else []
  let σ := (Subst.forReceiver n.path instanceArgs (.named n args)).bind i.params args
  (i.methods.get? method).bind fun m => m.own.overloads.head?.map (Overload.subst σ)

/-- The overload that a call of `method` on a receiver of type `t` takes, if there is one. -/
def World.callee (w : World) (t : Ty) (method : String) (m : Memo w) : Option Overload × Memo w :=
  match t with
  | .any => (some .permissive, m)
  | .named n args =>
    match w.link n.toAbsolute m with
    | (.error _, m) => (none, m)
    | (.ok i, m) => (i.1.select n args method, m)
  | _ => (none, m)

/-- The overload follows from the interface. -/
theorem World.fst_callee_named (w : World) (n : Nominal) (args : List Ty) (method : String) (m : Memo w) :
    (w.callee (.named n args) method m).1 =
      ((w.link n.toAbsolute m).1.map Subtype.val).toOption.bind fun i => i.select n args method := by
  unfold callee
  dsimp only
  rcases w.link n.toAbsolute m with ⟨_ | i, _⟩ <;> rfl

end MixinTypes
