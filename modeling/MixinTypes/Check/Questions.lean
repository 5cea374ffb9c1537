import MixinTypes.Assignable.Session
import MixinTypes.Check.Walk

/-!
# The questions of a checker

A checker knows of types only what its oracle answers. `Oracle.questions` lists what it asks when it
checks a program, answered or not by a memo. Few questions can be answered without any interface:
`World.Consults` says of the others that one may be needed.
-/

namespace MixinTypes

variable {σ : Type}

/-- The oracle that gives the same answers and keeps the questions in the order in which they are asked. -/
def Oracle.noting (o : Oracle σ) : Oracle (σ × List Query) where
  assignable src dest s :=
    let r := o.assignable src dest s.1
    (r.1, r.2, s.2 ++ [.test src dest])
  callee receiver method s :=
    let r := o.callee receiver method s.1
    (r.1, r.2, s.2 ++ [.callee receiver method])

/-- What the oracle is asked when a program is checked. -/
def Oracle.questions (o : Oracle σ) (host : Ty) (program : Node) (s : σ) : List Query :=
  (o.noting.check host program (s, [])).oracle.2

namespace World

/-- An interface may be needed for the answer: for further types or methods where two names are compared,
at once or in a question that this one comes down to, and for a receiver with a name. What is done to the
memo itself counts as such. -/
inductive Consults (w : World) : Query → Prop where
  | operation (op : Operation) : Consults w (.operation op)
  | supers {src dest : Ty} {n : Nominal} (reduced : w.reduce src dest = .supers n) :
      Consults w (.test src dest)
  | methods {src dest : Ty} {required provided : Nominal}
      (reduced : w.reduce src dest = .methods required provided) : Consults w (.test src dest)
  | part {src dest : Ty} {g : Goal} (mem : g ∈ (w.reduce src dest).goals)
      (below : Consults w (.test g.1 g.2)) : Consults w (.test src dest)
  | callee (n : Nominal) (args : List Ty) (method : String) : Consults w (.callee (.named n args) method)

end World

end MixinTypes
