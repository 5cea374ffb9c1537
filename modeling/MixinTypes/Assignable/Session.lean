import MixinTypes.Assignable.Search
import MixinTypes.Assignable.Selection
import MixinTypes.World.Session

/-!
# Sessions with questions

A session with questions is a list of queries over one inquiry: operations on its memo, tests, and
questions for the overload of a call. `World.answer` is the inquiry after one of them,
`World.inquiry` the inquiry after all of them, when the first starts with nothing known and no
question in progress.
-/

namespace MixinTypes

/-- A query with all that is handed over to it. -/
inductive Query where
  | operation (op : Operation)
  | test (src dest : Ty)
  | callee (receiver : Ty) (method : String)

namespace World

/-- The inquiry after a query. -/
def answer (w : World) (s : Inquiry w) : Query → Inquiry w
  | .operation op => s.learn (w.perform s.memo op)
  | .test src dest => (w.test src dest s).2
  | .callee receiver method => s.learn (w.callee receiver method s.memo).2

/-- The inquiry after queries to a new one. -/
def inquiry (w : World) (history : List Query) : Inquiry w :=
  history.foldl w.answer (.start (.empty w))

theorem inquiry_concat (w : World) (history : List Query) (q : Query) :
    w.inquiry (history ++ [q]) = w.answer (w.inquiry history) q := by
  unfold inquiry
  rw [List.foldl_append, List.foldl_cons, List.foldl_nil]

end World

end MixinTypes
