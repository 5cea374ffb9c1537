import MixinTypes.Proofs.Ancestry.Methods
import MixinTypes.Proofs.Linking.Outcome

/-!
# Inheriting from an applied superclass

A class that does nothing but apply its superclass to arguments has the superclass's methods with the
arguments put in. Its own arguments are put in afterwards. That is the same as putting in, at once, the
superclass's arguments with those of the class in them, unless an argument comes under the type parameters
of an overload one of which has the name of a parameter in the argument.

1. For one overload the two ways agree exactly when that does not happen
   (`subst_subst_eq_subst_iff`): a parameter that is bound twice stays as it is in the one way and is
   gone in the other.
2. The interface of such a class is the applied interface of its superclass
   (`exists_built_superclass`), so the two agree exactly when no overload of the superclass has such a
   parameter (`instantiate_superclass_eq_iff`).
-/

namespace MixinTypes

/-! ## One parameter -/

section Parameter

variable {τ : Subst} {names params ps : List String} {args targs : List Ty} {x : String} {a : Ty}

/-- A type does not notice that some parameters are left alone exactly when those of them that it
mentions stay as they are anyway. -/
theorem Ty.subst_without_eq_iff (t : Ty) :
    t.subst (τ.without names) = t.subst τ ↔ ∀ y ∈ t.vars, y ∈ names → τ.var y = .var y := by
  have one : ∀ y, (τ.without names).var y = τ.var y ↔ (y ∈ names → τ.var y = .var y) := by
    intro y
    by_cases hy : y ∈ names
    · simp [Subst.without, hy, eq_comm]
    · simp [Subst.without, hy]
  have hvars : t.subst (τ.without names) = t.subst τ ↔
      ∀ y ∈ t.vars, (τ.without names).var y = τ.var y := by
    apply Ty.subst_eq_subst_iff <;> rfl
  exact hvars.trans (forall₂_congr fun y _ => one y)

/-- Among the parameters in `names` the two ways agree: they are left alone in both. -/
theorem Subst.var_andThen_of_mem (hx : x ∈ names) :
    (((Subst.id.bind params args).without names).andThen (τ.without names)).var x =
      ((Subst.id.bind params (args.map (Ty.subst τ))).without names).var x := by
  simp [Subst.andThen, Subst.without, Ty.subst, hx]

/-- For another parameter they agree when `τ` makes the same of its argument. -/
theorem Subst.var_andThen_eq_iff (hn : params.Nodup) (he : (x, a) ∈ params.zip args)
    (hx : x ∉ names) :
    (((Subst.id.bind params args).without names).andThen (τ.without names)).var x =
        ((Subst.id.bind params (args.map (Ty.subst τ))).without names).var x ↔
      ∀ y ∈ a.vars, y ∈ names → τ.var y = .var y := by
  have hmapped : (x, a.subst τ) ∈ params.zip (args.map (Ty.subst τ)) := by
    rw [List.zip_map_right]
    exact List.mem_map.mpr ⟨(x, a), he, rfl⟩
  have hfirst : ((Subst.id.bind params args).without names).var x = a :=
    (if_neg hx).trans (var_bind_of_mem_zip hn he)
  have hsecond : ((Subst.id.bind params (args.map (Ty.subst τ))).without names).var x = a.subst τ :=
    (if_neg hx).trans (var_bind_of_mem_zip hn hmapped)
  change (((Subst.id.bind params args).without names).var x).subst (τ.without names) = _ ↔ _
  rw [hfirst, hsecond]
  exact Ty.subst_without_eq_iff a

/-- A parameter that stands for a type without parameters does not stay as it is. -/
theorem Subst.var_bind_ne_var (hps : ps.Nodup) (hlength : targs.length = ps.length)
    (hclosed : ∀ t ∈ targs, t.vars = []) (hx : x ∈ ps) : (Subst.id.bind ps targs).var x ≠ .var x := by
  intro h
  obtain ⟨t, ht⟩ := exists_mem_zip hlength hx
  rw [var_bind_of_mem_zip hps ht] at h
  have hvars := hclosed t (List.of_mem_zip ht).2
  rw [h] at hvars
  cases hvars

end Parameter

/-! ## One overload -/

namespace Overload

variable {σ τ ρ : Subst} {o : Overload}

/-- No argument that is put in for a parameter of the overload mentions one of the overload's own type
parameters. -/
def CaptureFree (params : List String) (args : List Ty) (o : Overload) : Prop :=
  ∀ e ∈ params.zip args, e.1 ∈ o.vars → e.1 ∉ o.typeParams → ∀ x ∈ e.2.vars, x ∉ o.typeParams

/-- Substituting twice makes the same of an overload as substituting once exactly when it makes the same
of its parameters. -/
theorem subst_subst_eq_subst_iff_vars (hσ : σ.Plain) (hτ : τ.Plain) (hρ : ρ.Plain) :
    (o.subst σ).subst τ = o.subst ρ ↔
      ∀ x ∈ o.vars, ((σ.without o.typeParams).andThen (τ.without o.typeParams)).var x =
        (ρ.without o.typeParams).var x := by
  have htwice : (o.subst σ).subst τ =
      o.map (Ty.subst ((σ.without o.typeParams).andThen (τ.without o.typeParams))) := by
    change (o.map _).map _ = _
    rw [map_map]
    exact congrArg o.map (funext (Ty.subst_subst _ _))
  have hplain := (hσ.without o.typeParams).andThen (hτ.without o.typeParams)
  rw [htwice, subst_eq_map, map_eq_map_iff, vars, List.forall_mem_flatMap]
  exact forall₂_congr fun t _ => hplain.subst_eq_subst_iff (hρ.without o.typeParams) t

/-- Arguments with parameters in them, and then types for those parameters: it is the same to put the
types into the arguments first exactly when no argument is captured. -/
theorem subst_subst_eq_subst_iff {params ps : List String} {args targs : List Ty}
    (hparams : params.Nodup) (hargs : args.length = params.length)
    (hvars : ∀ a ∈ args, ∀ x ∈ a.vars, x ∈ ps) (hps : ps.Nodup) (htargs : targs.length = ps.length)
    (hclosed : ∀ t ∈ targs, t.vars = []) (ho : ∀ x ∈ o.vars, x ∈ params ∨ x ∈ o.typeParams) :
    (o.subst (Subst.id.bind params args)).subst (Subst.id.bind ps targs) =
        o.subst (Subst.id.bind params (args.map (Ty.subst (Subst.id.bind ps targs)))) ↔
      o.CaptureFree params args := by
  rw [subst_subst_eq_subst_iff_vars (.id_bind ..) (.id_bind ..) (.id_bind ..)]
  constructor
  · intro h e he hmem hown y hy hcap
    refine Subst.var_bind_ne_var hps htargs hclosed (hvars e.2 (List.of_mem_zip he).2 y hy) ?_
    exact (Subst.var_andThen_eq_iff hparams he hown).mp (h e.1 hmem) y hy hcap
  · intro h x hx
    by_cases hown : x ∈ o.typeParams
    · exact Subst.var_andThen_of_mem hown
    · obtain ⟨a, ha⟩ := Subst.exists_mem_zip hargs ((ho x hx).resolve_right hown)
      refine (Subst.var_andThen_eq_iff hparams ha hown).mpr fun y hy hcap => ?_
      exact absurd hcap (h (x, a) ha hx hown y hy)

end Overload

/-! ## All overloads of an interface -/

/-- The overloads of a method and of all that it overrides. -/
def Method.overloads (m : Method) : List Overload := m.chain.flatMap Definition.overloads

/-- The overloads of all methods. -/
def Interface.overloads (i : Interface) : List Overload := i.methods.values.flatMap Method.overloads

theorem Method.subst_subst_eq_subst_iff {σ τ ρ : Subst} {m : Method} :
    (m.subst σ).subst τ = m.subst ρ ↔ ∀ o ∈ m.overloads, (o.subst σ).subst τ = o.subst ρ := by
  have one : ∀ d : Definition, (d.subst σ).subst τ = d.subst ρ ↔
      ∀ o ∈ d.overloads, (o.subst σ).subst τ = o.subst ρ := by
    intro d
    simp [Definition.subst, List.map_inj_left]
  simp only [subst, mk.injEq, List.map_map, List.map_inj_left, Function.comp_apply, one, overloads,
    chain, List.forall_mem_flatMap, List.forall_mem_cons]

/-- Instantiating what has been instantiated. -/
theorem Interface.methods_instantiate_eq_iff {i j : Interface} {args targs targs' : List Ty}
    (hi : i.methods = (j.instantiate args .id).methods) :
    (i.instantiate targs .id).methods = (j.instantiate targs' .id).methods ↔
      ∀ o ∈ j.overloads, (o.subst (Subst.id.bind j.params args)).subst (Subst.id.bind i.params targs) =
        o.subst (Subst.id.bind j.params targs') := by
  change i.methods.map _ = j.methods.map _ ↔ _
  rw [hi]
  change (j.methods.map _).map _ = j.methods.map _ ↔ _
  rw [Table.map_map, Table.map_eq_map_iff, overloads, List.forall_mem_flatMap]
  exact forall₂_congr fun m _ => Method.subst_subst_eq_subst_iff

/-! ## Classes that only apply their superclass -/

namespace World

variable {w : World} {sub base : Constant} {args : List Ty} {i : Interface}

/-- The class `sub` does nothing but apply its superclass `base` to `args`. -/
structure Specializes (w : World) (sub base : Constant) (args : List Ty) : Prop where
  declared : w.decls.constantAt? sub.path = some sub
  superclass : ∃ p, w.base? sub = some ⟨p, args⟩ ∧ w.decls.resolve? (some sub.path) p = some base
  memberless : sub.members = []
  unextended : w.decls.extensionsOf sub.path = []
  params : sub.params.Nodup
  baseParams : base.params.Nodup
  length : args.length = base.params.length
  absolute : ∀ a ∈ args, ∀ n ∈ a.names, n.path.absolute = true
  vars : ∀ a ∈ args, ∀ x ∈ a.vars, x ∈ sub.params

/-- The interface of such a class has the methods of its superclass with the arguments put in. -/
theorem exists_built_superclass (h : w.Specializes sub base args)
    (hi : Built w ⟨.instances, sub.path⟩ i) :
    ∃ j, Built w ⟨.instances, base.path⟩ j ∧ i.params = sub.params ∧ j.params = base.params ∧
      i.methods = (j.instantiate args .id).methods := by
  obtain ⟨p, hbase, hres⟩ := h.superclass
  obtain ⟨found, hbuilt, rfl⟩ := exists_assemble_of_built h.declared hi
  have habs : args.map (w.absoluteTy (some sub.path)) = args :=
    (List.map_congr_left fun a ha => absoluteTy_of_absolute (h.absolute a ha) _).trans (List.map_id' _)
  have hsuper : w.superclassSteps sub =
      w.noteName (some sub.path) ⟨.instances, p⟩ ++ [.mix ⟨.instances, base.path⟩ args]
        ++ w.noteTypes (some sub.path) args := by
    simp only [superclassSteps, hbase, absoluteName_instances hres, habs]
  have hself : sub.selfType? = none := by
    unfold base? at hbase
    split at hbase
    · cases hbase
    · next hbody => simp only [Constant.selfType?, hbody]
  have hsteps : (w.instancePlan sub).steps = w.superclassSteps sub := by
    simp [instancePlan, selfTypeSteps, noteTypes, Constant.includes, Constant.methods, hself,
      h.memberless, h.unextended]
  have hmem : (⟨.instances, base.path⟩ : Nominal) ∈ (w.instancePlan sub).requests := by
    rw [Plan.requests, hsteps, hsuper]
    simp [Step.request?]
  have hj := hbuilt _ hmem
  obtain ⟨found', -, hj'⟩ := exists_assemble_of_built (Declarations.constantAt?_of_resolve? hres) hj
  refine ⟨found ⟨.instances, base.path⟩, hj, rfl, by rw [hj']; rfl, ?_⟩
  change (((w.instancePlan sub).steps).foldl (Step.apply found) .empty).methods = _
  rw [hsteps, hsuper, List.foldl_append, List.foldl_append, noteTypes, noteName, Step.foldl_apply_note,
    Step.foldl_apply_note]
  exact Gathered.methods_merge_empty _ args

/-- When the interface of a class that only applies its superclass is obtained, so is that of the
superclass; and to apply the first to types without parameters gives the methods that the second has
when it is applied to the superclass's arguments with these types in them, exactly when no overload of
the superclass has a type parameter of the same name as one in an argument that is put in for a parameter
of the overload. -/
theorem instantiate_superclass_eq_iff (w : World) (history : List Operation) (sub base : Constant)
    (args targs : List Ty) (i : Interface) (h : w.Specializes sub base args)
    (hi : (w.interfaceOf none ⟨.instances, sub.path⟩ (w.after history)).1 = .ok i)
    (hlength : targs.length = sub.params.length) (hclosed : ∀ t ∈ targs, t.vars = []) :
    ∃ j, (w.interfaceOf none ⟨.instances, base.path⟩ (w.after history)).1 = .ok j ∧
      ((∀ o ∈ j.overloads, ∀ x ∈ o.vars, x ∈ base.params ∨ x ∈ o.typeParams) →
        ((i.instantiate targs .id).methods =
            (j.instantiate (args.map (Ty.subst (Subst.id.bind sub.params targs))) .id).methods ↔
          ∀ o ∈ j.overloads, o.CaptureFree base.params args)) := by
  obtain ⟨p, -, hres⟩ := h.superclass
  obtain ⟨j, hj, hiparams, hjparams, hmethods⟩ :=
    exists_built_superclass h ((interfaceOf_constant_iff (isOpen_after history) h.declared).mp hi)
  have hbase := Declarations.constantAt?_of_resolve? hres
  refine ⟨j, (interfaceOf_constant_iff (isOpen_after history) hbase).mpr hj, fun hvars => ?_⟩
  rw [Interface.methods_instantiate_eq_iff hmethods, hiparams, hjparams]
  exact forall₂_congr fun o ho => Overload.subst_subst_eq_subst_iff h.baseParams h.length h.vars h.params
    hlength hclosed (hvars o ho)

/-- A class whose method has a type parameter `b` of its own. -/
def paired : Constant where
  path := ⟨["Base"], true⟩
  params := ["a"]
  members := [.method ⟨"pair", .instances,
    [⟨["b"], [.required (.var "a"), .required (.var "b")], none, .var "a", .nowhere⟩], []⟩]
  extent := .nowhere
  body := .cls none

/-- A class that applies that class to its own parameter. -/
def pairedAt (name param : String) : Constant where
  path := ⟨[name], true⟩
  params := [param]
  members := []
  extent := .nowhere
  body := .cls (some ⟨⟨["Base"], false⟩, [.var param]⟩)

/-- Two classes that do so, one with a parameter `b`. -/
def pairing : World where
  decls := (Declarations.empty.addAll
    [.constant ⟨⟨["BasicObject"], true⟩, [], [], .nowhere, .cls none⟩,
     .constant ⟨⟨["Object"], true⟩, [], [], .nowhere, .cls (some ⟨⟨["BasicObject"], true⟩, []⟩)⟩,
     .constant paired, .constant (pairedAt "Other" "c"), .constant (pairedAt "Same" "b")]).1
  roots := .standard

theorem specializes_pairing {name param : String}
    (h : (name, param) ∈ [("Other", "c"), ("Same", "b")]) :
    pairing.Specializes (pairedAt name param) paired [.var param] := by
  have hresolved : pairing.decls.constantAt? ⟨[name], true⟩ = some (pairedAt name param) ∧
      pairing.base? (pairedAt name param) = some ⟨⟨["Base"], false⟩, [.var param]⟩ ∧
      pairing.decls.resolve? (some ⟨[name], true⟩) ⟨["Base"], false⟩ = some paired := by
    simp only [List.mem_cons, Prod.mk.injEq, List.not_mem_nil, or_false] at h
    rcases h with ⟨rfl, rfl⟩ | ⟨rfl, rfl⟩ <;> exact ⟨rfl, rfl, rfl⟩
  obtain ⟨hdeclared, hbase, hres⟩ := hresolved
  exact {
    declared := hdeclared
    superclass := ⟨_, hbase, hres⟩
    memberless := rfl
    unextended := rfl
    params := by simp [pairedAt]
    baseParams := by simp [paired]
    length := rfl
    absolute := by simp [Ty.names]
    vars := by simp [Ty.vars, pairedAt] }

theorem exists_interfaces_pairing (name : String) (h : name ∈ ["Other", "Same"]) :
    ∃ i j, (pairing.interfaceOf none ⟨.instances, ⟨[name], true⟩⟩ (.empty pairing)).1 = .ok i ∧
      (pairing.interfaceOf none ⟨.instances, ⟨["Base"], true⟩⟩ (.empty pairing)).1 = .ok j ∧
      ∀ o ∈ j.overloads, o.vars = ["a", "b", "a"] ∧ o.typeParams = ["b"] := by
  obtain ⟨i, hi, -, -⟩ := exists_built_of_map_eq (w := pairing) (n := ⟨.instances, ⟨[name], true⟩⟩)
    (f := Interface.supers) (a := []) (by revert name; decide +kernel)
  obtain ⟨j, hj, -, hoverloads⟩ := exists_built_of_map_eq (w := pairing)
    (n := ⟨.instances, ⟨["Base"], true⟩⟩) (f := fun j => j.overloads.map fun o => (o.vars, o.typeParams))
    (a := [(["a", "b", "a"], ["b"])]) (by decide +kernel)
  refine ⟨i, j, hi, hj, fun o ho => ?_⟩
  have hmem := List.mem_map_of_mem (f := fun o : Overload => (o.vars, o.typeParams)) ho
  rw [hoverloads, List.mem_singleton] at hmem
  exact Prod.mk.inj hmem

/-- With a parameter of another name nothing is captured. -/
theorem instantiate_superclass_eq_pairing :
    ∃ i j, (pairing.interfaceOf none ⟨.instances, ⟨["Other"], true⟩⟩ (.empty pairing)).1 = .ok i ∧
      (pairing.interfaceOf none ⟨.instances, ⟨["Base"], true⟩⟩ (.empty pairing)).1 = .ok j ∧
      (i.instantiate [.ofPath ⟨["Object"], true⟩ []] .id).methods =
        (j.instantiate [.ofPath ⟨["Object"], true⟩ []] .id).methods := by
  obtain ⟨i, j, hi, hj, hoverloads⟩ := exists_interfaces_pairing "Other" (by decide)
  obtain ⟨j', hj', hiff⟩ := instantiate_superclass_eq_iff pairing [] (pairedAt "Other" "c") paired
    [.var "c"] [.ofPath ⟨["Object"], true⟩ []] i (specializes_pairing (by decide)) hi rfl
    (by simp [Ty.vars])
  obtain rfl := Except.ok.inj (hj.symm.trans hj')
  refine ⟨i, j, hi, hj, (hiff ?_).mpr ?_⟩
  · intro o ho
    rw [(hoverloads o ho).1, (hoverloads o ho).2]
    decide
  · intro o ho
    rw [Overload.CaptureFree, (hoverloads o ho).1, (hoverloads o ho).2]
    decide

/-- With a parameter of the same name the argument is captured: the superclass's parameter then stands for
the parameter of the method. -/
theorem not_instantiate_superclass_eq_pairing :
    ¬ ∀ sub base args targs i j, pairing.Specializes sub base args →
      (pairing.interfaceOf none ⟨.instances, sub.path⟩ (.empty pairing)).1 = .ok i →
      (pairing.interfaceOf none ⟨.instances, base.path⟩ (.empty pairing)).1 = .ok j →
      targs.length = sub.params.length → (∀ t ∈ targs, t.vars = []) →
      (∀ o ∈ j.overloads, ∀ x ∈ o.vars, x ∈ base.params ∨ x ∈ o.typeParams) →
      (i.instantiate targs .id).methods =
        (j.instantiate (args.map (Ty.subst (Subst.id.bind sub.params targs))) .id).methods := by
  intro h
  obtain ⟨i, j, hi, hj, hoverloads⟩ := exists_interfaces_pairing "Same" (by decide)
  have hsame := h (pairedAt "Same" "b") paired [.var "b"] [.ofPath ⟨["Object"], true⟩ []] i j
    (specializes_pairing (by decide)) hi hj rfl (by simp [Ty.vars]) ?_
  · have hreturns : ((pairing.interfaceOf none ⟨.instances, ⟨["Same"], true⟩⟩
          (.empty pairing)).1.toOption.map fun i =>
        (i.instantiate [.ofPath ⟨["Object"], true⟩ []] .id).overloads.map Overload.returns) ≠
      ((pairing.interfaceOf none ⟨.instances, ⟨["Base"], true⟩⟩ (.empty pairing)).1.toOption.map fun j =>
        (j.instantiate [.ofPath ⟨["Object"], true⟩ []] .id).overloads.map Overload.returns) := by
      decide +kernel
    rw [hi, hj] at hreturns
    refine hreturns (congrArg some ?_)
    exact congrArg (fun t => (t.values.flatMap Method.overloads).map Overload.returns) hsame
  · intro o ho
    rw [(hoverloads o ho).1, (hoverloads o ho).2]
    decide

end World

end MixinTypes
