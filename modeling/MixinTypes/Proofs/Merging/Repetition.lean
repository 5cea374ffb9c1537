import MixinTypes.Proofs.Linking.Outcome
import MixinTypes.Proofs.Merging.Chains

/-!
# Chains without repetition

A definition joins a chain only if nothing in the chain is `==` to it. Definitions are put over each other in
both directions, though: those of a declaration over what was inherited, and what comes with an interface
over what was gathered before it. And the first interface that is merged, like a constructor, comes in
without any comparison. That no chain repeats a definition is therefore an invariant of the whole
construction, and one of the interfaces that are merged as well.

Arguments could make two definitions of a chain the same. So no declaration is to have type parameters.

1. A method put over another is orderly when both are (`Method.keptAtop_orderly`), so the steps of a plan
   keep all chains orderly if those of the interfaces that they merge are (`Step.each_foldl_apply`).
2. By induction on how it was built, every interface is orderly (`World.Monomorphic.orderly`).
-/

namespace MixinTypes

/-! ## Chains -/

namespace Method

variable {name : String} {m base : Method}

/-- The definitions of the method have its name, and none of them is `==` to one that it overrides. -/
structure Orderly (name : String) (m : Method) : Prop where
  named : ∀ d ∈ m.chain, d.name = name
  distinct : m.chain.Pairwise fun d d' => (d == d') = false

theorem orderly_ofDefinition (d : Definition) : (ofDefinition d).Orderly d.name where
  named := List.forall_mem_singleton.mpr rfl
  distinct := List.pairwise_singleton ..

/-- What a method has overridden is dropped when it is put onto another; so only its own definition has to
differ from those that are there. -/
theorem Orderly.onto (hm : m.Orderly name) (hbase : base.Orderly name) (h : base.covers m.own = false) :
    (m.onto base).Orderly name where
  named := List.forall_mem_cons.mpr ⟨hm.named _ (List.mem_cons_self ..), hbase.named⟩
  distinct := by
    refine List.pairwise_cons.mpr ⟨fun d hd => ?_, hbase.distinct⟩
    have hne := List.any_eq_false.mp h d hd
    rw [Definition.beq_comm]
    exact Bool.eq_false_iff.mpr hne

theorem keptAtop_orderly : KeptAtop Orderly :=
  .of_onto fun _ _ _ hm hbase h => hm.onto hbase h

/-- At two places of its chain a method has two definitions, whichever of them comes first. -/
theorem Orderly.beq_eq_false (hm : m.Orderly name) {j k : Nat} (hj : j < m.chain.length)
    (hk : k < m.chain.length) (hne : j ≠ k) : (m.chain[j] == m.chain[k]) = false := by
  have hlt := List.pairwise_iff_getElem.mp hm.distinct
  rcases Nat.lt_or_gt_of_ne hne with h | h
  · exact hlt j k hj hk h
  · rw [Definition.beq_comm]
    exact hlt k j hk hj h

end Method

/-! ## Interfaces -/

namespace World

variable {w : World} {n : Nominal} {p : Plan} {i : Interface}

/-- Nothing that is declared has type parameters. -/
def Monomorphic (w : World) : Prop :=
  (∀ c ∈ w.decls.constants, c.params = []) ∧ ∀ q ∈ w.decls.protocols, q.params = []

instance (w : World) : Decidable w.Monomorphic := by
  unfold Monomorphic
  infer_instance

namespace Monomorphic

theorem params_of_plan (hw : w.Monomorphic) (hp : w.plan n = .ok p) : p.params = [] := by
  obtain ⟨facet, path⟩ := n
  cases facet with
  | instances =>
    obtain ⟨c, hc, rfl⟩ := exists_of_map_eq_ok hp
    exact hw.1 c (Declarations.mem_of_find hc)
  | moduleObject | classObject =>
    obtain ⟨c, hc, rfl⟩ := exists_of_map_eq_ok hp
    exact hw.1 c (Declarations.mem_of_find (Declarations.find_of_findKind hc).1)
  | protocol =>
    obtain ⟨q, hq, rfl⟩ := exists_of_map_eq_ok hp
    exact hw.2 q (Declarations.mem_of_protocolAt? (Declarations.protocolAt?_of_findProtocol hq))

/-- Without type parameters arguments change nothing, so the chains of an interface stay as they are when
it is merged. -/
theorem orderly (hw : w.Monomorphic) (h : Built w n i) : i.methods.Each Method.Orderly := by
  have applied : ∀ {r j}, Built w r j → ∀ args, j.instantiate args .id = j := by
    intro r j hj args
    cases hj with
    | intro found hp _ => exact Interface.instantiate_of_params (hw.params_of_plan hp) args
  induction h with
  | @intro n p found hp hb ih =>
    refine Step.each_foldl_apply Method.keptAtop_orderly (MethodTable.each_empty _) fun s hs => ?_
    cases s with
    | note | constrain | drop => trivial
    | define d | put d => exact Method.orderly_ofDefinition d
    | seed r args | mix r args =>
      have hr : r ∈ p.requests := mem_requests_of_source? hs rfl
      change ((found r).instantiate args .id).methods.Each Method.Orderly
      rw [applied (hb r hr)]
      exact ih r hr

end Monomorphic

/-- When nothing that is declared has type parameters, every definition in the chain of a method carries the
name of the method, and the definitions at different places are different: in owner, overloads or
attributes. -/
theorem interfaceOf_orderly (w : World) (history : List Operation) (scope : Option Path) (n : Nominal)
    (i : Interface) (hw : w.Monomorphic) (hi : (w.interfaceOf scope n (w.after history)).1 = .ok i)
    (name : String) (m : Method) (hm : i.methods.get? name = some m) :
    (∀ d ∈ m.chain, d.name = name) ∧
      ∀ (j k : Nat) (hj : j < m.chain.length) (hk : k < m.chain.length), j ≠ k →
        (m.chain[j] == m.chain[k]) = false := by
  have hbuilt := (interfaceOf_eq_ok_iff (isOpen_after history)).mp hi
  have horderly := hw.orderly hbuilt name m hm
  exact ⟨horderly.named, fun j k hj hk hne => horderly.beq_eq_false hj hk hne⟩

/-- A module that comes into a class by its superclass and by itself, and a method of it that each of the
classes and an extension declare again, the extension twice. -/
def redeclared : World where
  decls := (Declarations.empty.addAll
    [.constant ⟨⟨["BasicObject"], true⟩, [], [], .nowhere, .cls none⟩,
     .constant ⟨⟨["Object"], true⟩, [], [], .nowhere, .cls (some ⟨⟨["BasicObject"], true⟩, []⟩)⟩,
     .constant ⟨⟨["Shared"], true⟩, [], [.method ⟨"call", .instances, [], []⟩], .nowhere, .mod none⟩,
     .constant ⟨⟨["Upper"], true⟩, [],
      [.included ⟨⟨["Shared"], false⟩, []⟩, .method ⟨"call", .instances, [], []⟩], .nowhere,
      .cls none⟩,
     .constant ⟨⟨["Lower"], true⟩, [],
      [.included ⟨⟨["Shared"], false⟩, []⟩, .method ⟨"call", .instances, [], []⟩], .nowhere,
      .cls (some ⟨⟨["Upper"], false⟩, []⟩)⟩,
     .extension ⟨⟨["Lower"], true⟩, "more",
      [.method ⟨"call", .instances, [], [.hidden]⟩, .method ⟨"call", .instances, [], [.hidden]⟩,
       .method ⟨"call", .instances, [], []⟩], .nowhere⟩]).1
  roots := .standard

/-- The method has four definitions, and they are four. -/
theorem interfaceOf_orderly_redeclared :
    ∃ i m, (redeclared.interfaceOf none ⟨.instances, ⟨["Lower"], true⟩⟩ (redeclared.after [])).1 = .ok i ∧
      i.methods.get? "call" = some m ∧ m.chain.length = 4 ∧ (∀ d ∈ m.chain, d.name = "call") ∧
      ∀ (j k : Nat) (hj : j < m.chain.length) (hk : k < m.chain.length), j ≠ k →
        (m.chain[j] == m.chain[k]) = false := by
  have hlength : (redeclared.interfaceOf none ⟨.instances, ⟨["Lower"], true⟩⟩
      (redeclared.after [])).1.toOption.bind
        (fun i => (i.methods.get? "call").map fun m => m.chain.length) = some 4 := by
    decide +kernel
  obtain ⟨i, hi, hlength⟩ := Option.bind_eq_some_iff.mp hlength
  obtain ⟨m, hm, hlength⟩ := Option.map_eq_some_iff.mp hlength
  have hi := eq_ok_of_toOption_eq_some hi
  obtain ⟨hnamed, hdistinct⟩ := interfaceOf_orderly redeclared [] none
    ⟨.instances, ⟨["Lower"], true⟩⟩ i (by decide +kernel) hi "call" m hm
  exact ⟨i, m, hi, hm, hlength, hnamed, hdistinct⟩

/-- A class that includes a module twice, once for its type parameter, and a subclass that gives the other
argument for the parameter. -/
def conflated : World where
  decls := (Declarations.empty.addAll
    [.constant ⟨⟨["BasicObject"], true⟩, [], [], .nowhere, .cls none⟩,
     .constant ⟨⟨["Object"], true⟩, [], [], .nowhere, .cls (some ⟨⟨["BasicObject"], true⟩, []⟩)⟩,
     .constant ⟨⟨["Holder"], true⟩, ["a"],
      [.method ⟨"item", .instances, [⟨[], [], none, .var "a", .nowhere⟩], []⟩], .nowhere, .mod none⟩,
     .constant ⟨⟨["Upper"], true⟩, ["b"],
      [.included ⟨⟨["Holder"], true⟩, [.var "b"]⟩, .included ⟨⟨["Holder"], true⟩, [.any]⟩], .nowhere,
      .cls none⟩,
     .constant ⟨⟨["Lower"], true⟩, [], [], .nowhere, .cls (some ⟨⟨["Upper"], true⟩, [.any]⟩)⟩]).1
  roots := .standard

-- The two definitions of the class are one in the subclass.
example : ["Upper", "Lower"].map (fun name =>
    (conflated.interfaceOf none ⟨.instances, ⟨[name], true⟩⟩ (conflated.after [])).1.toOption.bind fun i =>
      (i.methods.get? "item").map fun m => m.overridden.map (· == m.own)) =
    [some [false], some [true]] := by
  decide +kernel

end World

end MixinTypes
