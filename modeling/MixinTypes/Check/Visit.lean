import Mathlib.Logic.Relation
import MixinTypes.Check.Walk

/-!
# The visits of a checker

While a checker walks a program it comes to one node after another, to each with what it has found out until then.
`Oracle.GoesOn` says from which visit it comes to which: it goes on to the nodes of a sequence, the value of an
assignment, the receiver and the arguments of a call, the elements of a hash and the value of a pair. The visits
that it makes from a first one on are those at any distance (`Oracle.Visits`).

On a visit of a call it looks up the types of the arguments once these have been visited, pair after pair.
`Oracle.LooksUp` says which types, and what has been found out when they are looked up.
-/

namespace MixinTypes

variable {σ : Type}

/-- A node that the checker comes to, and what it knows then. -/
structure Visit (σ : Type) where
  node : Node
  known : Checking σ

namespace Checking

/-- A pair is compared after those before it, with the type that is found then, or `any` if there is none. -/
theorem closeCall_of_pairs (o : Oracle σ) (c : Checking σ) {overload : Overload} {args : List Node}
    {before after : List (Ty × Node)} {t : Ty} {x : Node}
    (pairs : overload.formals.pairs args = before ++ (t, x) :: after) :
    let seen := c.checkPairs o before
    let actual := (seen.typeOf? x).getD .any
    c.closeCall o (some overload) args =
      (overload.returns, (seen.expect o actual t ⟨x.site, .invalidArgument t actual⟩).checkPairs o after) := by
  intro seen actual
  rw [closeCall, checkPairs, pairs, List.foldl_append]
  rfl

end Checking

namespace Oracle

variable (o : Oracle σ) (host : Ty)

/-- The overload that a call takes, and what is known before its arguments are visited. -/
def opened (site : Site) (receiver : Option Node) (method : String) (args : List Node) (c : Checking σ) :
    Option Overload × Checking σ :=
  match receiver with
  | none => c.openCall o site host method args
  | some r => (o.walk host r c).2.openCall o site (o.walk host r c).1 method args

/-- What is known after the arguments of a call are visited. -/
def supplied (site : Site) (receiver : Option Node) (method : String) (args : List Node) (c : Checking σ) :
    Checking σ :=
  (o.walkSeq host .any args (o.opened host site receiver method args c).2).2

theorem walk_call (site : Site) (receiver : Option Node) (method : String) (args : List Node) (c : Checking σ) :
    o.walk host (.call site receiver method args) c =
      let closed := (o.supplied host site receiver method args c).closeCall o
        (o.opened host site receiver method args c).1 args
      closed.2.record site closed.1 := by
  cases receiver with
  | none => rw [walk]; rfl
  | some r => rw [walk]; rfl

/-- From the first visit the checker goes on to the second one. -/
inductive GoesOn : Visit σ → Visit σ → Prop where
  | body {site : Site} {before after : List Node} {n : Node} {c : Checking σ} :
      GoesOn ⟨.seq site (before ++ n :: after), c⟩ ⟨n, (o.walkSeq host .any before c).2⟩
  | value {site : Site} {name : String} {value : Node} {c : Checking σ} :
      GoesOn ⟨.assign site name value, c⟩ ⟨value, c⟩
  | receiver {site : Site} {receiver : Node} {method : String} {args : List Node} {c : Checking σ} :
      GoesOn ⟨.call site (some receiver) method args, c⟩ ⟨receiver, c⟩
  | argument {site : Site} {receiver : Option Node} {method : String} {before after : List Node} {n : Node}
      {c : Checking σ} :
      GoesOn ⟨.call site receiver method (before ++ n :: after), c⟩
        ⟨n, (o.walkSeq host .any before (o.opened host site receiver method (before ++ n :: after) c).2).2⟩
  | element {site : Site} {before after : List Node} {n : Node} {c : Checking σ} :
      GoesOn ⟨.hash site (before ++ n :: after), c⟩ ⟨n, (o.walkSeq host .any before c).2⟩
  | pairValue {site : Site} {key value : Node} {c : Checking σ} : GoesOn ⟨.pair site key value, c⟩ ⟨value, c⟩

/-- From the first visit the checker comes to the second one, at any distance. -/
def Visits : Visit σ → Visit σ → Prop := Relation.ReflTransGen (o.GoesOn host)

/-- On this visit, which is one of a call that takes an overload, the type of `x` is looked up for a pair, when
`seen` is known: the arguments have been visited, and the pairs before this one compared. -/
inductive LooksUp : Visit σ → Node → Checking σ → Prop where
  | pair {site : Site} {receiver : Option Node} {method : String} {args : List Node} {c : Checking σ}
      {overload : Overload} {before after : List (Ty × Node)} {t : Ty} {x : Node}
      (takes : (o.opened host site receiver method args c).1 = some overload)
      (pairs : overload.formals.pairs args = before ++ (t, x) :: after) :
      LooksUp ⟨.call site receiver method args, c⟩ x
        ((o.supplied host site receiver method args c).checkPairs o before)

variable {o host}

/-- What is found is compared with the parameter; then come the pairs that are left, and the call has its type. -/
theorem LooksUp.resumes {v : Visit σ} {x : Node} {seen : Checking σ} (h : o.LooksUp host v x seen) :
    ∃ t rest returns,
      let actual := (seen.typeOf? x).getD .any
      let compared := seen.expect o actual t ⟨x.site, .invalidArgument t actual⟩
      o.walk host v.node v.known = (compared.checkPairs o rest).record v.node.site returns := by
  cases h with
  | @pair site receiver method args c overload before after t x takes pairs =>
    refine ⟨t, after, overload.returns, ?_⟩
    rw [walk_call, takes, Checking.closeCall_of_pairs o _ pairs]
    rfl

end Oracle

end MixinTypes
