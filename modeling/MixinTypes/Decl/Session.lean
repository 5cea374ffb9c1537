import MixinTypes.Decl.Collection

/-!
# Sessions of declaring

A session of declaring is a list of calls on one collection, each with one declaration or with several.
`Declarations.declare` is the collection after a call and what the call answers, `Declarations.after` the
collection after all of them, those that fail included, when the first starts with nothing declared.
-/

namespace MixinTypes

/-- A call with all that is handed over to it. -/
inductive Addition where
  | one (x : Declaration)
  /-- Several declarations, up to the first that fails. -/
  | several (xs : List Declaration)

namespace Declarations

/-- The collection after a call, and what the call answers. -/
def declare (d : Declarations) : Addition → Declarations × Except LookupError Unit
  | .one x =>
    match d.add x with
    | .error e => (d, .error e)
    | .ok d => (d, .ok ())
  | .several xs => d.addAll xs

/-- The collection after calls on an empty one. -/
def after (calls : List Addition) : Declarations := calls.foldl (fun d a => (d.declare a).1) .empty

theorem after_concat (calls : List Addition) (a : Addition) :
    after (calls ++ [a]) = ((after calls).declare a).1 := by
  unfold after
  rw [List.foldl_append, List.foldl_cons, List.foldl_nil]

/-- A declaration that cannot be added leaves the collection as it is. -/
theorem declare_one_of_add_eq_error {d : Declarations} {x : Declaration} {e : LookupError}
    (h : d.add x = .error e) : d.declare (.one x) = (d, .error e) := by
  simp only [declare, h]

theorem declare_one_of_add {d d' : Declarations} {x : Declaration} (h : d.add x = .ok d') :
    d.declare (.one x) = (d', .ok ()) := by
  simp only [declare, h]

/-- A call with one declaration answers what adding it does. -/
theorem snd_declare_one_eq_error_iff {d : Declarations} {x : Declaration} {e : LookupError} :
    (d.declare (.one x)).2 = .error e ↔ d.add x = .error e := by
  cases hadd : d.add x with
  | error e' => rw [declare_one_of_add_eq_error hadd, Except.error.injEq, Except.error.injEq]
  | ok d' =>
    rw [declare_one_of_add hadd]
    constructor
    · exact nofun
    · exact nofun

end Declarations

end MixinTypes
