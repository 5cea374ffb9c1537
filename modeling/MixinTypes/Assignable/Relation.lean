import MixinTypes.Assignable.Reduction
import MixinTypes.World.Built

/-!
# The assignability relation

`Assignable w src dest` says by rules, without any procedure, that values of type `src` may be used
where `dest` is expected. Among the rules for unions and intersections the source's union comes
first, then the destination's union, the destination's intersection and the source's intersection; two
nominal types are compared only when neither type is a union or an intersection. A question that leads
back to itself is no reason for it to hold.
-/

namespace MixinTypes

/-- Values of the first type may be used where the second is expected. -/
inductive Assignable (w : World) : Ty → Ty → Prop where
  | anySource {dest : Ty} : Assignable w .any dest
  | anyDest {src : Ty} : Assignable w src .any
  | refl {t : Ty} : Assignable w t t
  | unionSource {ts : List Ty} {dest : Ty} (each : ∀ t ∈ ts, Assignable w t dest) :
      Assignable w (.union ts) dest
  | unionDest {src t : Ty} {ts : List Ty} (source : ¬ src.IsUnion) (mem : t ∈ ts)
      (one : Assignable w src t) : Assignable w src (.union ts)
  | interDest {src : Ty} {ts : List Ty} (source : ¬ src.IsUnion)
      (each : ∀ t ∈ ts, Assignable w src t) : Assignable w src (.inter ts)
  | interSource {t dest : Ty} {ts : List Ty} (notUnion : ¬ dest.IsUnion) (notInter : ¬ dest.IsInter)
      (mem : t ∈ ts) (one : Assignable w t dest) : Assignable w (.inter ts) dest
  /-- The same declaration needs arguments that are assignable in both directions. -/
  | sameDeclaration {n m : Nominal} {args params : List Ty} (akin : n.facet.Akin m.facet)
      (same : n.path.toAbsolute = m.path.toAbsolute) (length : args.length = params.length)
      (forth : ∀ p ∈ args.zip params, Assignable w p.1 p.2)
      (back : ∀ p ∈ args.zip params, Assignable w p.2 p.1) :
      Assignable w (.named n args) (.named m params)
  /-- A proper ancestor takes any arguments. -/
  | ancestor {n m : Nominal} {args params : List Ty} (akin : n.facet.Akin m.facet)
      (other : n.path.toAbsolute ≠ m.path.toAbsolute)
      (mem : m.path.toAbsolute ∈ w.ancestors n.path) :
      Assignable w (.named n args) (.named m params)
  /-- Without such an ancestor a further type of the source, other than the source itself, must do. -/
  | furtherType {n m : Nominal} {args params : List Ty} {i : Interface} {t : Ty}
      (akin : n.facet.Akin m.facet) (other : n.path.toAbsolute ≠ m.path.toAbsolute)
      (foreign : m.path.toAbsolute ∉ w.ancestors n.path) (built : Built w n.toAbsolute i)
      (mem : t ∈ i.supers) (proper : t ≠ .named n args)
      (one : Assignable w t (.named m params)) : Assignable w (.named n args) (.named m params)
  /-- A protocol is satisfied by the names of methods alone. -/
  | protocol {n m : Nominal} {args params : List Ty} {required provided : Interface}
      (target : m.facet = .protocol) (builtRequired : Built w m.toAbsolute required)
      (builtProvided : Built w n.toAbsolute provided)
      (methods : ∀ name ∈ required.methods.keys, name ∈ provided.methods.keys) :
      Assignable w (.named n args) (.named m params)
  | moduleObject {n m : Nominal} {args params : List Ty} (source : n.facet = .moduleObject)
      (target : m.facet = .moduleObject) (same : n.path.toAbsolute = m.path.toAbsolute) :
      Assignable w (.named n args) (.named m params)

end MixinTypes
