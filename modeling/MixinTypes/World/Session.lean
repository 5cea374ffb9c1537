import MixinTypes.World.Link

/-!
# Sessions

A session is a list of operations over one memo. `World.perform` is the memo after one of them,
`World.after` the memo after all of them, when the first starts with an empty one.
-/

namespace MixinTypes

/-- An operation with all that is handed over to it. -/
inductive Operation where
  | interface (scope : Option Path) (name : Nominal)
  | name (scope : Option Path) (name : Nominal)
  | type (scope : Option Path) (type : Ty)
  | params (scope : Option Path) (params : List Param)
  | signature (scope : Option Path) (result : Option Ty) (signature : Signature)
  | mixin (scope : Path) (name : Nominal) (args : List Ty) (gathered : Gathered)
  | method (owner : Nominal) (method : MethodDecl) (table : MethodTable)

namespace World

/-- The memo after an operation. -/
def perform (w : World) (m : Memo w) : Operation → Memo w
  | .interface scope n => (w.interfaceOf scope n m).2
  | .name scope n => (w.resolveName scope n m).2
  | .type scope t => (w.resolveTy scope t m).2
  | .params scope ps => (w.resolveParams scope ps m).2
  | .signature scope result s => (w.resolveSignature scope result s m).2
  | .mixin scope n args g => (w.mergeMixin scope n args g m).2
  | .method owner d t => (w.addMethod owner d t m).2

/-- The memo after operations on an empty one. -/
def after (w : World) (history : List Operation) : Memo w := history.foldl w.perform (.empty w)

theorem after_concat (w : World) (history : List Operation) (op : Operation) :
    w.after (history ++ [op]) = w.perform (w.after history) op := by
  unfold after
  rw [List.foldl_append, List.foldl_cons, List.foldl_nil]

end World

end MixinTypes
