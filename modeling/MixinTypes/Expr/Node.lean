import MixinTypes.Text.Extent

/-!
# Expressions

Expression trees as the checker sees them. Every node has a number, under which its type is noted,
and an extent. Numbers need not be distinct. Shapes that are not understood are kept with their
children but never looked into.

`Node.induction` is the induction principle with a hypothesis for every child; `preorder_eq` and
`walked_eq` unfold the lists of all nodes and of the evaluated ones by one level.
-/

namespace MixinTypes

/-- The number and the place of a node. -/
structure Site where
  id : Nat
  extent : Extent
deriving DecidableEq

/-- A literal that holds no other expression. -/
inductive Literal where
  | nil
  | int (value : Int)
  | str (value : String)
  | sym (value : String)
deriving DecidableEq

/-- An expression. -/
inductive Node where
  /-- Expressions one after another. -/
  | seq (site : Site) (body : List Node)
  | assign (site : Site) (name : String) (value : Node)
  | read (site : Site) (name : String)
  | lit (site : Site) (value : Literal)
  /-- A method call; without a receiver it goes to the surrounding object. -/
  | call (site : Site) (receiver : Option Node) (method : String) (args : List Node)
  | hash (site : Site) (elements : List Node)
  | pair (site : Site) (key value : Node)
  /-- A shape that is not understood. -/
  | unsupported (site : Site) (kind : String) (children : List Node)

namespace Node

def site : Node → Site
  | .seq s _ | .assign s _ _ | .read s _ | .lit s _ | .call s _ _ _ | .hash s _ | .pair s _ _
  | .unsupported s _ _ => s

def id (n : Node) : Nat := n.site.id

/-- The nodes directly inside a node: a receiver before arguments, a key before its value. -/
def children : Node → List Node
  | .seq _ ns | .hash _ ns | .unsupported _ _ ns => ns
  | .assign _ _ value => [value]
  | .call _ receiver _ args => receiver.toList ++ args
  | .pair _ key value => [key, value]
  | .read .. | .lit .. => []

/-- The children that are evaluated: keys and what is inside an unsupported shape are not. -/
def evaluated : Node → List Node
  | .seq _ ns | .hash _ ns => ns
  | .assign _ _ value => [value]
  | .call _ receiver _ args => receiver.toList ++ args
  | .pair _ _ value => [value]
  | .read .. | .lit .. | .unsupported .. => []

/-- What is evaluated stands among the children, in the same order. -/
theorem evaluated_sublist_children (n : Node) : n.evaluated.Sublist n.children := by
  cases n with
  | pair s key value => exact List.sublist_cons_self key [value]
  | unsupported s kind ns => exact List.nil_sublist ns
  | _ => exact List.Sublist.refl _

theorem sizeOf_lt_of_mem_children {c n : Node} (h : c ∈ n.children) : sizeOf c < sizeOf n := by
  have mem : ∀ {ns : List Node}, c ∈ ns → sizeOf c < sizeOf ns := List.sizeOf_lt_of_mem
  rcases n with _ | _ | _ | _ | ⟨_, _ | _, _, _⟩ | _ | _ | _ <;>
    simp only [children, Option.toList, List.nil_append, List.cons_append, List.mem_cons,
      List.not_mem_nil, or_false] at h
  · simp only [seq.sizeOf_spec]; have := mem h; omega
  · subst h; simp only [assign.sizeOf_spec]; omega
  · simp only [call.sizeOf_spec]; have := mem h; omega
  · rcases h with rfl | h
    · simp only [call.sizeOf_spec, Option.some.sizeOf_spec]; omega
    · simp only [call.sizeOf_spec]; have := mem h; omega
  · simp only [hash.sizeOf_spec]; have := mem h; omega
  · rcases h with rfl | rfl <;> simp only [pair.sizeOf_spec] <;> omega
  · simp only [unsupported.sizeOf_spec]; have := mem h; omega

/-- Induction over nodes, with a hypothesis for each child. -/
theorem induction {motive : Node → Prop}
    (step : ∀ n : Node, (∀ c ∈ n.children, motive c) → motive n) (n : Node) : motive n :=
  step n fun c _ => induction step c
termination_by n
decreasing_by exact sizeOf_lt_of_mem_children (by assumption)

mutual

/-- A node and everything inside it, each node before its children. -/
def preorder : Node → List Node
  | .seq s ns => .seq s ns :: preorderList ns
  | .assign s name value => .assign s name value :: preorder value
  | .read s name => [.read s name]
  | .lit s value => [.lit s value]
  | .call s none method args => .call s none method args :: preorderList args
  | .call s (some r) method args =>
    .call s (some r) method args :: (preorder r ++ preorderList args)
  | .hash s ns => .hash s ns :: preorderList ns
  | .pair s key value => .pair s key value :: (preorder key ++ preorder value)
  | .unsupported s kind ns => .unsupported s kind ns :: preorderList ns

/-- The nodes of a list and everything inside them. -/
def preorderList : List Node → List Node
  | [] => []
  | n :: ns => preorder n ++ preorderList ns

end

@[simp] theorem preorderList_eq (ns : List Node) : preorderList ns = ns.flatMap preorder := by
  induction ns with
  | nil => rfl
  | cons n ns ih => simp [preorderList, ih]

theorem preorder_eq (n : Node) : n.preorder = n :: n.children.flatMap preorder := by
  rcases n with _ | _ | _ | _ | ⟨_, _ | _, _, _⟩ | _ | _ | _ <;> simp [preorder, children]

mutual

/-- A node and all that is evaluated for it: what stands in a key or inside a shape that is not
understood is left out. -/
def walked : Node → List Node
  | .seq s ns => .seq s ns :: walkedList ns
  | .assign s name value => .assign s name value :: walked value
  | .read s name => [.read s name]
  | .lit s value => [.lit s value]
  | .call s none method args => .call s none method args :: walkedList args
  | .call s (some r) method args => .call s (some r) method args :: (walked r ++ walkedList args)
  | .hash s ns => .hash s ns :: walkedList ns
  | .pair s key value => .pair s key value :: walked value
  | .unsupported s kind ns => [.unsupported s kind ns]

/-- The nodes of a list and all that is evaluated for them. -/
def walkedList : List Node → List Node
  | [] => []
  | n :: ns => walked n ++ walkedList ns

end

@[simp] theorem walkedList_eq (ns : List Node) : walkedList ns = ns.flatMap walked := by
  induction ns with
  | nil => rfl
  | cons n ns ih => simp [walkedList, ih]

theorem walked_eq (n : Node) : n.walked = n :: n.evaluated.flatMap walked := by
  rcases n with _ | _ | _ | _ | ⟨_, _ | _, _, _⟩ | _ | _ | _ <;> simp [walked, evaluated]

theorem self_mem_walked (n : Node) : n ∈ n.walked := by
  rw [walked_eq]
  exact List.mem_cons_self ..

/-- What is evaluated for a node that is evaluated. -/
theorem mem_walked_of_mem_evaluated {n c x : Node} (hc : c ∈ n.evaluated) (hx : x ∈ c.walked) :
    x ∈ n.walked := by
  rw [walked_eq]
  exact List.mem_cons_of_mem _ (List.mem_flatMap.mpr ⟨c, hc, hx⟩)

/-- The variable that a node assigns or reads. -/
def local? : Node → Option String
  | .assign _ name _ | .read _ name => some name
  | _ => none

end Node

end MixinTypes
