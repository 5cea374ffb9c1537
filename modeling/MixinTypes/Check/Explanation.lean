import MixinTypes.Check.Walk

/-!
# What the types of a program explain

Once every node has its type, the faults of a program can be told node by node, without the walk that
found them: what is wrong at a node follows from its own type, the types of the nodes it uses, and
what is known about types. `Answers.faultsAt` lists the faults of one node, `Answers.callType` is the
type that a call must have.
-/

namespace MixinTypes

/-- Fixed answers to the questions of a checker. -/
structure Answers where
  accepts : Ty → Ty → Bool
  callee : Ty → String → Option Overload

/-- What an oracle answers in a state. -/
def Oracle.answers (o : Oracle σ) (s : σ) : Answers where
  accepts src dest := (o.assignable src dest s).1
  callee t method := (o.callee t method s).1

/-- The type of a node, `any` while there is none. -/
def Checking.typeOf (c : Checking σ) (n : Node) : Ty := (c.typeOf? n).getD .any

namespace Answers

section

variable (k : Answers) (host : Ty) (typeOf : Node → Ty)

/-- The type of the object that a call goes to. -/
def receiverType (receiver : Option Node) : Ty := receiver.elim host typeOf

/-- The overload that a call takes. -/
def calleeOf (receiver : Option Node) (method : String) : Option Overload :=
  k.callee (receiverType host typeOf receiver) method

/-- The type of a call. -/
def callType (receiver : Option Node) (method : String) : Ty :=
  ((k.calleeOf host typeOf receiver method).map Overload.returns).getD .any

/-- The arguments whose types do not fit the parameters that they fill. -/
def pairFaults (pairs : List (Ty × Node)) : List Fault :=
  (pairs.filter fun p => !k.accepts (typeOf p.2) p.1).map fun p =>
    ⟨p.2.site, .invalidArgument p.1 (typeOf p.2)⟩

/-- What is wrong at a node itself, given the types of all nodes. -/
def faultsAt (n : Node) : List Fault :=
  match n with
  | .assign site _ value =>
    if k.accepts (typeOf value) (typeOf n) then []
    else [⟨site, .incompatibleAssignment (typeOf n) (typeOf value)⟩]
  | .call site receiver method args =>
    match k.calleeOf host typeOf receiver method with
    | none => [⟨site, .noMethod (receiverType host typeOf receiver) method⟩]
    | some o => o.formals.shapeFaults site args ++ k.pairFaults typeOf (o.formals.pairs args)
  | _ => []

end

variable (k : Answers) (host : Ty)

/-- What is wrong at some nodes. -/
def faultsOf (nodes : List Node) (typeOf : Node → Ty) : List Fault :=
  nodes.flatMap (k.faultsAt host typeOf)

/-- Types that agree on the pairs find the same faults in them. -/
theorem pairFaults_congr {typeOf typeOf' : Node → Ty} {pairs : List (Ty × Node)}
    (h : ∀ p ∈ pairs, typeOf p.2 = typeOf' p.2) :
    k.pairFaults typeOf pairs = k.pairFaults typeOf' pairs := by
  induction pairs with
  | nil => rfl
  | cons p pairs ih =>
    have hp := h p (List.mem_cons_self ..)
    have hps := ih fun q hq => h q (List.mem_cons_of_mem p hq)
    unfold pairFaults at hps ⊢
    rw [List.filter_cons, List.filter_cons, hp]
    split
    · rw [List.map_cons, List.map_cons, hp, hps]
    · exact hps

theorem faultsOf_cons (n : Node) (nodes : List Node) (typeOf : Node → Ty) :
    k.faultsOf host (n :: nodes) typeOf = k.faultsAt host typeOf n ++ k.faultsOf host nodes typeOf :=
  List.flatMap_cons

theorem faultsOf_append (xs ys : List Node) (typeOf : Node → Ty) :
    k.faultsOf host (xs ++ ys) typeOf = k.faultsOf host xs typeOf ++ k.faultsOf host ys typeOf :=
  List.flatMap_append

/-- The faults of a call are those of its shape and those of its pairs. -/
theorem faultsAt_call (typeOf : Node → Ty) (site : Site) (receiver : Option Node)
    (method : String) (args : List Node) :
    k.faultsAt host typeOf (.call site receiver method args) =
      callFaults (k.calleeOf host typeOf receiver method) (receiverType host typeOf receiver) method
          site args
        ++ (k.calleeOf host typeOf receiver method).elim []
          fun v => k.pairFaults typeOf (v.formals.pairs args) := by
  simp only [faultsAt]
  cases k.calleeOf host typeOf receiver method with
  | none => rfl
  | some v => rfl

end Answers

end MixinTypes
