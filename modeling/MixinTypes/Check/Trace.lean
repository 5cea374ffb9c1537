import MixinTypes.Check.Walk

/-!
# Traces of a checker

A trace lists the nodes that a checker has finished, each with the type that it was given, in the order in which
they were finished: a node comes after all that its evaluation goes on to. The trace tells what the checker knew
at every moment on the way. A variable has a type from the first assignment on that is finished, and a node has
the type that it was given last.

`Checking.Replays` says that what happened between two states is what a trace tells. `Checking.Fixes` says what
the types at the end tell of one variable.
-/

namespace MixinTypes

namespace Node

mutual

/-- A node and all that is evaluated for it, in the order in which it is finished. -/
def finished : Node → List Node
  | .seq s ns => finishedList ns ++ [.seq s ns]
  | .assign s name value => finished value ++ [.assign s name value]
  | .read s name => [.read s name]
  | .lit s value => [.lit s value]
  | .call s none method args => finishedList args ++ [.call s none method args]
  | .call s (some r) method args => finished r ++ finishedList args ++ [.call s (some r) method args]
  | .hash s ns => finishedList ns ++ [.hash s ns]
  | .pair s key value => finished value ++ [.pair s key value]
  | .unsupported s kind ns => [.unsupported s kind ns]

/-- The nodes of a list and all that is evaluated for them, in the order in which it is finished. -/
def finishedList : List Node → List Node
  | [] => []
  | n :: ns => finished n ++ finishedList ns

end

@[simp] theorem finishedList_eq (ns : List Node) : finishedList ns = ns.flatMap finished := by
  induction ns with
  | nil => rfl
  | cons n ns ih => simp [finishedList, ih]

theorem finished_eq (n : Node) : n.finished = n.evaluated.flatMap finished ++ [n] := by
  rcases n with _ | _ | _ | _ | ⟨_, _ | _, _, _⟩ | _ | _ | _ <;> simp [finished, evaluated]

theorem self_mem_finished (n : Node) : n ∈ n.finished := by
  rw [finished_eq]
  exact List.mem_append_right _ (List.mem_singleton_self n)

/-- The variable that a node assigns. -/
def assigned? : Node → Option String
  | .assign _ name _ => some name
  | _ => none

end Node

namespace Checking

variable {σ : Type}

/-- The types of the variables after a node has been finished: an assignment gives its type to a variable that
has none. -/
def bindFirst (locals : Table String Ty) (e : Node × Ty) : Table String Ty :=
  match e.1.assigned? with
  | none => locals
  | some name => if locals.contains name then locals else locals.insert name e.2

/-- The types of the variables after a trace. -/
def localsAfter (locals : Table String Ty) (trace : List (Node × Ty)) : Table String Ty :=
  trace.foldl bindFirst locals

/-- The types of the nodes after a trace. -/
def typesAfter (types : Table Nat Ty) (trace : List (Node × Ty)) : Table Nat Ty :=
  (trace.map fun e => (e.1.id, e.2)).foldl (fun types e => types.insert e.1 e.2) types

theorem localsAfter_append (locals : Table String Ty) (xs ys : List (Node × Ty)) :
    localsAfter locals (xs ++ ys) = localsAfter (localsAfter locals xs) ys :=
  List.foldl_append

theorem typesAfter_append (types : Table Nat Ty) (xs ys : List (Node × Ty)) :
    typesAfter types (xs ++ ys) = typesAfter (typesAfter types xs) ys := by
  rw [typesAfter, List.map_append, List.foldl_append]
  rfl

/-- The type of a node is what it had to be when the node was finished, after the trace `before`. A read has the
type of the variable, `any` while there is none. An assignment has the type of the variable, too, and if there is
none that of the value, which has just been finished. -/
def Fits (locals : Table String Ty) (before : List (Node × Ty)) : Node × Ty → Prop
  | (.read _ name, t) => t = ((localsAfter locals before).get? name).getD .any
  | (.assign _ name value, t) =>
    match (localsAfter locals before).get? name with
    | some known => t = known
    | none => before.getLast? = some (value, t)
  | _ => True

/-- From `c` to `c'` the nodes of the trace have been finished and given their types. -/
structure Replays (trace : List (Node × Ty)) (c c' : Checking σ) : Prop where
  locals : c'.locals = localsAfter c.locals trace
  types : c'.types = typesAfter c.types trace
  faults : c.faults <+: c'.faults
  fits : ∀ before e after, trace = before ++ e :: after → Fits c.locals before e

/-- From `c` to `c'` nodes have been finished in this order, and in the end their types are these: every
assignment to `x` has the type of `x`, which is that of the value of the first assignment to be finished unless
`x` had a type before; a read has that type, too, and `any` as long as `x` had none. -/
structure Fixes (c c' : Checking σ) (order : List Node) (x : String) : Prop where
  assign : ∀ site value, Node.assign site x value ∈ order →
    ∃ t, c'.locals.get? x = some t ∧ c'.typeOf? (.assign site x value) = some t
  first : ∀ before site value after, order = before ++ .assign site x value :: after →
    c.locals.get? x = none → (∀ n ∈ before, n.assigned? ≠ some x) →
      c'.typeOf? value = c'.locals.get? x
  read : ∀ before site after, order = before ++ .read site x :: after →
    ((∃ t, c.locals.get? x = some t) ∨ ∃ n ∈ before, n.assigned? = some x) →
      ∃ t, c'.locals.get? x = some t ∧ c'.typeOf? (.read site x) = some t
  unset : ∀ before site after, order = before ++ .read site x :: after →
    c.locals.get? x = none → (∀ n ∈ before, n.assigned? ≠ some x) →
      c'.typeOf? (.read site x) = some .any

end Checking

end MixinTypes
