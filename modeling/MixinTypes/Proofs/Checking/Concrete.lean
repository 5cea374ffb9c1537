import MixinTypes.Assignable.Session
import MixinTypes.Check.Session
import MixinTypes.Proofs.Checking.Invariant
import MixinTypes.Ty.Concrete

/-!
# No pseudo-type comes out of a call

Interfaces speak of receivers through the pseudo-types. What a checker finds out does not.

1. Checking finds no types but `any`, the type of the surrounding object and those that stand in the
   overloads of calls (`keeps_confined`, for any property of types that an oracle keeps).
2. The overload that a call takes has no pseudo-type left when there is none in the arguments of the
   receiver: everything that takes the place of a pseudo-type is made of the receiver
   (`Interface.concrete_of_select`).
-/

namespace MixinTypes

variable {σ : Type}

/-! ## Types with a property -/

/-- A call on a receiver with the property takes an overload of which all types have it. -/
structure Oracle.Confined (o : Oracle σ) (P : Ty → Prop) : Prop where
  any : P .any
  callee : ∀ {t}, P t → ∀ method s, ∀ v ∈ (o.callee t method s).1, ∀ u ∈ v.types, P u

namespace Checking

/-- All types that have been found have the property: those of variables, those of nodes, and those that
faults speak of. -/
structure Confined (P : Ty → Prop) (c : Checking σ) : Prop where
  locals : ∀ t ∈ c.locals.values, P t
  types : ∀ t ∈ c.types.values, P t
  faults : ∀ f ∈ c.faults, ∀ t ∈ f.cause.types, P t

variable {P : Ty → Prop} {c : Checking σ}

theorem confined_start (s : σ) : (start s).Confined P :=
  ⟨List.forall_mem_nil _, List.forall_mem_nil _, List.forall_mem_nil _⟩

/-- A type that is looked up, `any` where there is none. -/
theorem confined_getD {κ : Type} [DecidableEq κ] {t : Table κ Ty} (hany : P .any)
    (h : ∀ u ∈ t.values, P u) (k : κ) : P ((t.get? k).getD .any) := by
  cases hk : t.get? k with
  | none => exact hany
  | some u => exact h u (Table.mem_values_of_get? hk)

theorem confined_insert {κ : Type} [DecidableEq κ] {t : Table κ Ty} {u : Ty}
    (h : ∀ u ∈ t.values, P u) (hu : P u) (k : κ) : ∀ v ∈ (t.insert k u).values, P v := by
  intro v hv
  rcases Table.mem_values_insert hv with rfl | hv
  · exact hu
  · exact h v hv

namespace Confined

variable (h : c.Confined P)

include h

theorem record {t : Ty} (ht : P t) (site : Site) : (c.record site t).2.Confined P :=
  ⟨h.locals, confined_insert h.types ht site.id, h.faults⟩

theorem report {faults : List Fault} (hf : ∀ f ∈ faults, ∀ t ∈ f.cause.types, P t) :
    (c.report faults).Confined P :=
  ⟨h.locals, h.types, List.forall_mem_append.mpr ⟨h.faults, hf⟩⟩

theorem expect (o : Oracle σ) (src dest : Ty) {fault : Fault} (hf : ∀ t ∈ fault.cause.types, P t) :
    (c.expect o src dest fault).Confined P := by
  refine ⟨h.locals, h.types, ?_⟩
  unfold Checking.expect
  dsimp only
  split
  · exact h.faults
  · exact List.forall_mem_append.mpr ⟨h.faults, List.forall_mem_singleton.mpr hf⟩

theorem assign (o : Oracle σ) (site : Site) (name : String) {t : Ty} (ht : P t) :
    P (c.assign o site name t).1 ∧ (c.assign o site name t).2.Confined P := by
  unfold Checking.assign
  split
  · exact ⟨ht, confined_insert h.locals ht name, h.types, h.faults⟩
  · next target htarget =>
    have hold : P target := h.locals target (Table.mem_values_of_get? htarget)
    refine ⟨hold, h.expect o t target ?_⟩
    exact List.forall_mem_cons.mpr ⟨hold, List.forall_mem_singleton.mpr ht⟩

theorem checkPairs (o : Oracle σ) (hany : P .any) {pairs : List (Ty × Node)}
    (hpairs : ∀ p ∈ pairs, P p.1) : (c.checkPairs o pairs).Confined P := by
  induction pairs generalizing c with
  | nil => exact h
  | cons p pairs ih =>
    obtain ⟨hp, hpairs⟩ := List.forall_mem_cons.mp hpairs
    have hactual : P ((c.typeOf? p.2).getD .any) := confined_getD hany h.types p.2.id
    refine ih (h.expect o _ _ ?_) hpairs
    exact List.forall_mem_cons.mpr ⟨hp, List.forall_mem_singleton.mpr hactual⟩

theorem closeCall (o : Oracle σ) (hany : P .any) {callee : Option Overload}
    (hcallee : ∀ v ∈ callee, ∀ u ∈ v.types, P u) (args : List Node) :
    P (c.closeCall o callee args).1 ∧ (c.closeCall o callee args).2.Confined P := by
  cases callee with
  | none => exact ⟨hany, h⟩
  | some v =>
    have htypes := hcallee v rfl
    refine ⟨htypes v.returns v.returns_mem_types, h.checkPairs o hany fun p hp => ?_⟩
    exact htypes p.1 (v.formals_types_subset (Formals.mem_types_of_mem_pairs hp))

end Confined

end Checking

/-- The faults in the shape of a call speak of no type. -/
theorem types_of_mem_shapeFaults {f : Formals} {site : Site} {args : List Node} {fault : Fault}
    (h : fault ∈ f.shapeFaults site args) : fault.cause.types = [] := by
  simp only [Formals.shapeFaults, List.mem_append, List.mem_map] at h
  rcases h with ((⟨_, -, rfl⟩ | ⟨_, -, rfl⟩) | ⟨_, -, rfl⟩) | ⟨_, -, rfl⟩ <;> rfl

theorem confined_callFaults {P : Ty → Prop} {t : Ty} (ht : P t) (callee : Option Overload)
    (method : String) (site : Site) (args : List Node) :
    ∀ f ∈ callFaults callee t method site args, ∀ u ∈ f.cause.types, P u := by
  intro f hf u hu
  cases callee with
  | none =>
    obtain rfl := List.mem_singleton.mp hf
    obtain rfl := List.mem_singleton.mp hu
    exact ht
  | some v =>
    rw [types_of_mem_shapeFaults hf] at hu
    cases hu

/-- An oracle that keeps a property of types lets the checker find no others. -/
theorem Oracle.keeps_confined {o : Oracle σ} {P : Ty → Prop} (ho : o.Confined P) {host : Ty}
    (hhost : P host) :
    o.Keeps host (Checking.Confined P) P fun callee => ∀ v ∈ callee, ∀ u ∈ v.types, P u where
  any := ho.any
  host := hhost
  read hc name := Checking.confined_getD ho.any hc.locals name
  record hc ht site := hc.record ht site
  assign hc ht site name := hc.assign o site name ht
  openCall {c} {t} hc ht site method args :=
    have hasked : Checking.Confined P { c with oracle := (o.callee t method c.oracle).2 } :=
      ⟨hc.locals, hc.types, hc.faults⟩
    ⟨ho.callee ht method c.oracle, hasked.report (confined_callFaults ht _ method site args)⟩
  closeCall hc hcallee args := hc.closeCall o ho.any hcallee args

/-! ## Concrete types -/

theorem Overload.concrete_subst {τ : Subst} (h : τ.Each Ty.Concrete) (o : Overload) :
    ∀ t ∈ (o.subst τ).types, t.Concrete := by
  rw [subst_eq_map, types_map]
  exact List.forall_mem_map.mpr fun t _ => Ty.concrete_subst (h.without Ty.concrete_var o.typeParams) t

theorem Overload.concrete_permissive : ∀ t ∈ permissive.types, t.Concrete := by decide

/-- Whatever an interface says of its receivers, the overload for one whose arguments are concrete has
concrete types only. -/
theorem Interface.concrete_of_select {i : Interface} {n : Nominal} {args : List Ty} {method : String}
    {o : Overload} (hargs : ∀ t ∈ args, t.Concrete) (h : i.select n args method = some o) :
    ∀ t ∈ o.types, t.Concrete := by
  obtain ⟨m, -, hm⟩ := Option.bind_eq_some_iff.mp h
  obtain ⟨written, -, rfl⟩ := Option.map_eq_some_iff.mp hm
  have hinstance : ∀ t ∈ if n.facet = .instances then args else [], t.Concrete := by
    split
    · exact hargs
    · exact List.forall_mem_nil _
  have hreceiver := Subst.concrete_forReceiver n.path hinstance (Ty.concrete_named (n := n) hargs)
  exact Overload.concrete_subst (hreceiver.bind i.params hargs) written

namespace World

variable {w : World}

theorem concrete_of_callee {n : Nominal} {args : List Ty} {method : String} {m : Memo w} {o : Overload}
    (hargs : ∀ t ∈ args, t.Concrete) (h : (w.callee (.named n args) method m).1 = some o) :
    ∀ t ∈ o.types, t.Concrete := by
  rw [fst_callee_named] at h
  obtain ⟨i, -, hi⟩ := Option.bind_eq_some_iff.mp h
  exact Interface.concrete_of_select hargs hi

theorem confined_inquirer (w : World) : w.inquirer.Confined Ty.Concrete where
  any := Ty.concrete_any
  callee {t} ht method s := by
    intro v hv
    change (w.callee t method s.memo).1 = some v at hv
    cases t with
    | any =>
      obtain rfl := Option.some.inj hv
      exact Overload.concrete_permissive
    | named n args => exact concrete_of_callee (Ty.concrete_iff.mp ht).2 hv
    | var | self | inst | cls | union | inter => cases hv

/-- Pseudo-types stay inside the interfaces. Whatever is declared and whatever is known already: a program
of which the surrounding object has a concrete type is given concrete types, and its faults speak of
concrete types; and a call on a receiver with concrete arguments takes an overload without pseudo-types in
its parameters, its block or its result. -/
theorem check_concrete (w : World) (s : Inquiry w) :
    (∀ host program, host.Concrete →
      let c := w.inquirer.check host program s
      (∀ t ∈ c.types.values, t.Concrete) ∧ ∀ f ∈ c.faults, ∀ t ∈ f.cause.types, t.Concrete) ∧
    ∀ n args method o, (∀ t ∈ args, Ty.Concrete t) →
      (w.inquirer.callee (.named n args) method s).1 = some o → ∀ t ∈ o.types, t.Concrete := by
  refine ⟨fun host program hhost => ?_, fun n args method o hargs h => concrete_of_callee hargs h⟩
  have hkept := (Oracle.keeps_confined (confined_inquirer w) hhost).check program (Checking.confined_start s)
  exact ⟨hkept.types, hkept.faults⟩

/-- Boxes, with a method that speaks of its receiver in parameters, block and result. -/
def boxes : World where
  decls := (Declarations.empty.addAll
    [.constant ⟨⟨["BasicObject"], true⟩, [], [], .nowhere, .cls none⟩,
     .constant ⟨⟨["Object"], true⟩, [], [], .nowhere, .cls (some ⟨⟨["BasicObject"], true⟩, []⟩)⟩,
     .constant ⟨⟨["Box"], true⟩, ["a"],
      [.method ⟨"wrap", .instances, [⟨[], [.required .self, .keyword "like" .inst],
        some ⟨[.required .cls], .var "a"⟩, .named ⟨.instances, ⟨["Box"], true⟩⟩ [.self], .nowhere⟩], []⟩],
      .nowhere, .cls none⟩]).1
  roots := .standard

/-- A box of objects is wrapped in another one, and only concrete types come up. -/
theorem check_concrete_boxes :
    let boxOf : Ty → Ty := fun t => .named ⟨.instances, ⟨["Box"], true⟩⟩ [t]
    let object : Ty := .ofPath ⟨["Object"], true⟩ []
    let program : Node := .call ⟨0, .nowhere⟩ none "wrap" []
    let c := boxes.inquirer.check (boxOf object) program (boxes.inquiry [])
    (∀ t ∈ c.types.values, t.Concrete) ∧ (∀ f ∈ c.faults, ∀ t ∈ f.cause.types, t.Concrete) ∧
      ∃ o, (boxes.inquirer.callee (boxOf object) "wrap" (boxes.inquiry [])).1 = some o ∧
        o.returns = boxOf (boxOf object) ∧ o.types.length = 5 ∧ ∀ t ∈ o.types, t.Concrete := by
  intro boxOf object program c
  obtain ⟨hchecked, hcallee⟩ := check_concrete boxes (boxes.inquiry [])
  obtain ⟨htypes, hfaults⟩ := hchecked (boxOf object) program (by decide)
  have hfound : ((boxes.inquirer.callee (boxOf object) "wrap" (boxes.inquiry [])).1.map
      fun o => (o.returns, o.types.length)) = some (boxOf (boxOf object), 5) := by
    decide +kernel
  obtain ⟨o, ho, heq⟩ := Option.map_eq_some_iff.mp hfound
  obtain ⟨hreturns, hlength⟩ := Prod.mk.inj heq
  exact ⟨htypes, hfaults, o, ho, hreturns, hlength, hcallee _ _ _ _ (by decide) ho⟩

end World

end MixinTypes
