import Mathlib.Logic.Relation
import MixinTypes.Proofs.Checking.Replay

/-!
# Which nodes are given a type

Checking a program gives types to the nodes that are evaluated and to no others, whatever the oracle answers
and whatever faults are found.

1. `Node.Needs` says which nodes the evaluation of a node goes on to; what is evaluated for a node is what is
   reached in this way (`Node.mem_walked_iff`).
2. Walking a node replays a trace of what is evaluated for it, each node once for every time that it occurs, so
   these are the nodes that it gives types to (`gains_walk`).
-/

namespace MixinTypes

variable {σ : Type}

/-! ## What is evaluated -/

namespace Node

/-- The evaluation of the first node goes on to the second one: to the nodes of a sequence, the value of an
assignment, the receiver and the arguments of a call, the elements of a hash and the value of a pair. -/
inductive Needs : Node → Node → Prop where
  | body {site : Site} {body : List Node} {n : Node} (mem : n ∈ body) : Needs (.seq site body) n
  | value {site : Site} {name : String} {value : Node} : Needs (.assign site name value) value
  | receiver {site : Site} {receiver : Node} {method : String} {args : List Node} :
      Needs (.call site (some receiver) method args) receiver
  | argument {site : Site} {receiver : Option Node} {method : String} {args : List Node} {n : Node}
      (mem : n ∈ args) : Needs (.call site receiver method args) n
  | element {site : Site} {elements : List Node} {n : Node} (mem : n ∈ elements) :
      Needs (.hash site elements) n
  | pairValue {site : Site} {key value : Node} : Needs (.pair site key value) value

theorem mem_evaluated_iff {n c : Node} : c ∈ n.evaluated ↔ n.Needs c := by
  constructor
  · intro h
    cases n with
    | seq site body => exact .body h
    | assign site name value =>
      obtain rfl := List.mem_singleton.mp h
      exact .value
    | call site receiver method args =>
      rcases List.mem_append.mp h with h | h
      · obtain rfl := Option.mem_toList.mp h
        exact .receiver
      · exact .argument h
    | hash site elements => exact .element h
    | pair site key value =>
      obtain rfl := List.mem_singleton.mp h
      exact .pairValue
    | read | lit | unsupported => cases h
  · intro h
    cases h with
    | body mem | element mem => exact mem
    | value | pairValue => exact List.mem_singleton_self c
    | receiver => exact List.mem_cons_self ..
    | argument mem => exact List.mem_append_right _ mem

/-- What is evaluated for a node is what its evaluation goes on to, at any distance. -/
theorem mem_walked_iff {n x : Node} : x ∈ n.walked ↔ Relation.ReflTransGen Needs n x := by
  constructor
  · intro h
    induction n using Node.induction with
    | step n ih =>
      rw [walked_eq] at h
      rcases List.mem_cons.mp h with rfl | h
      · exact .refl
      · obtain ⟨c, hc, hx⟩ := List.mem_flatMap.mp h
        exact .head (mem_evaluated_iff.mp hc) (ih c (n.evaluated_sublist_children.mem hc) hx)
  · intro h
    induction h using Relation.ReflTransGen.head_induction_on with
    | refl => exact self_mem_walked x
    | head hneeds _ ih => exact mem_walked_of_mem_evaluated (mem_evaluated_iff.mpr hneeds) ih

end Node

/-! ## What is given a type -/

namespace Checking

/-- From `c` to `c'` types have been noted under the numbers of these nodes and under no others. -/
def Gains (nodes : List Node) (c c' : Checking σ) : Prop :=
  ∀ i, i ∈ c'.types.keys ↔ i ∈ nodes.map Node.id ∨ i ∈ c.types.keys

end Checking

namespace Oracle

open Checking

/-- Whatever was found out before, walking the node gives types to what is evaluated for it. -/
def GainsWalked (o : Oracle σ) (host : Ty) (n : Node) : Prop :=
  ∀ c, Gains n.walked c (o.walk host n c).2

theorem gains_walk (o : Oracle σ) (host : Ty) (n : Node) : o.GainsWalked host n := by
  intro c i
  obtain ⟨trace, hnodes, hreplays⟩ := (replays_walk o host n).exists_trace c
  rw [hreplays.types, mem_keys_typesAfter, hnodes, (n.finished_perm_walked.map Node.id).mem_iff]

/-- Whatever the oracle answers and whatever is wrong with a program, the numbers that have a type after
checking it are those of the nodes that its evaluation goes on to, at any distance. So they are the same with
another oracle and another host: whether methods are found and which arguments they take makes no
difference. -/
theorem mem_keys_check_iff (o : Oracle σ) (host : Ty) (program : Node) (s : σ) :
    (∀ i, i ∈ (o.check host program s).types.keys ↔
        ∃ n, Relation.ReflTransGen Node.Needs program n ∧ n.id = i) ∧
      ∀ {τ : Type} (o' : Oracle τ) (host' : Ty) (s' : τ),
        (o'.check host' program s').types.keys.Perm (o.check host program s).types.keys := by
  have numbers : ∀ {τ : Type} (o : Oracle τ) (host : Ty) (s : τ) (i : Nat),
      i ∈ (o.check host program s).types.keys ↔
        ∃ n, Relation.ReflTransGen Node.Needs program n ∧ n.id = i := by
    intro τ o host s i
    rw [check, gains_walk o host program (.start s) i, List.mem_map]
    simp only [Node.mem_walked_iff]
    exact or_iff_left List.not_mem_nil
  refine ⟨numbers o host s, fun o' host' s' => ?_⟩
  refine (List.perm_ext_iff_of_nodup (Table.nodup _) (Table.nodup _)).mpr fun i => ?_
  exact (numbers o' host' s' i).trans (numbers o host s i).symm

end Oracle

end MixinTypes
