import MixinTypes.Proofs.Construction.Flags
import MixinTypes.Proofs.Ancestry.Objects
import MixinTypes.Proofs.Linking.Outcome

/-!
# Construction matters for `new` alone

A class has an object that can construct and one that cannot. Both are built in the same way from the
same declarations, each over the objects of its own kind, and they come out the same but for the flag in
their names and for `new`, which only the first one keeps. If one of them cannot be built, neither can
the other, for the same reason.

1. The owners of the methods in an interface are names that are needed for it (`owned_reaches`), so
   they have the flag of the interface, or none (`flagged_of_built`).
2. The plans for the two flags have the same core and request the same up to the flag
   (`exists_plan_withFlag`). By induction on how the interfaces were built, their cores are the same
   (`core_eq_core`).
3. A failure is followed along the same requests (`Fails.withFlag`), so the errors are the same up to
   the flag as well (`interfaceOf_classObject`).
-/

namespace MixinTypes

namespace World

variable {w : World} {n r : Nominal} {p : Plan} {c : Constant} {i j : Interface}
  {found : Nominal → Interface} {k : Bool}

/-! ## Owners -/

/-- What holds of the methods in the interfaces that a plan requests and of its own definitions holds of
each of its steps. -/
theorem ownedBy_of_mem {P : Nominal → Prop} (hp : w.plan n = .ok p) (hown : P n.toAbsolute)
    (hfound : ∀ r ∈ p.requests, MethodTable.Owned P (found r).methods) :
    ∀ s ∈ p.steps, s.OwnedBy found P := by
  -- a step that merges is to be judged by the interface that it requests
  let Q (s : Step) : Prop :=
    (∀ r, s.request? = some r → MethodTable.Owned P (found r).methods) → s.OwnedBy found P
  obtain ⟨merging, own, hsteps, hmerging, howned⟩ :=
    exists_parts (P := Q) (Q := Q) (fun _ _ => trivial) hp (fun _ _ => trivial)
      (fun r _ h => h r rfl) (fun r _ h => h r rfl) (fun _ _ _ _ _ => trivial)
      (fun d hd _ => by rw [← hd] at hown; exact hown)
      (fun d hd _ _ => by rw [← hd] at hown; exact hown) fun _ _ => trivial
  have hall : ∀ s ∈ p.steps, Q s := by
    rw [hsteps]
    exact List.forall_mem_append.mpr ⟨hmerging, howned⟩
  exact fun s hs => hall s hs fun r hr => hfound r (List.mem_filterMap.mpr ⟨s, hs, hr⟩)

/-- The owners of the methods in an interface are needed for it. -/
theorem owned_reaches (h : Built w n i) :
    MethodTable.Owned (fun o => ∃ r, w.Reaches n r ∧ o = r.toAbsolute) i.methods := by
  induction h with
  | @intro n p found hp hb ih =>
    refine Step.owned_foldl_apply (MethodTable.owned_empty _)
      (ownedBy_of_mem hp ⟨n, .refl, rfl⟩ fun r hr => (ih r hr).imp ?_)
    rintro o ⟨q, hq, rfl⟩
    exact ⟨q, .head (dependsOn_of_request hp hr) hq, rfl⟩

/-! ## Flags -/

/-- The flag does not matter for what a path denotes. -/
theorem withFlag_absoluteName (scope : Option Path) (n : Nominal) (k : Bool) :
    (w.absoluteName scope n).withFlag k = w.absoluteName scope (n.withFlag k) := by
  obtain ⟨facet, path⟩ := n
  have hfacet := w.absoluteName_facet scope ⟨facet, path⟩
  cases facet with
  | classObject k' =>
    change _ = w.absoluteName scope ⟨.classObject k, path⟩
    rw [absoluteName_classObject scope path k' k, Nominal.withFlag, hfacet]
    rfl
  | instances | moduleObject | protocol =>
    rw [Nominal.withFlag, hfacet]
    exact congrArg (Nominal.mk · _) hfacet.symm

theorem flagged_absoluteName {scope : Option Path} (h : n.Flagged k) :
    (w.absoluteName scope n).Flagged k := by
  rw [Nominal.Flagged, withFlag_absoluteName, h]

/-- What is needed for a name has its flag. -/
theorem flagged_of_dependsOn (h : w.DependsOn n r) (hn : n.Flagged k) : r.Flagged k := by
  cases h with
  | superclassObject =>
    cases hn
    exact flagged_absoluteName rfl
  | _ => exact flagged_absoluteName rfl

theorem flagged_of_reaches (h : w.Reaches n r) (hn : n.Flagged k) : r.Flagged k := by
  induction h with
  | refl => exact hn
  | tail _ hdep ih => exact flagged_of_dependsOn hdep ih

theorem flagged_of_built (h : Built w n i) (hn : n.Flagged k) :
    MethodTable.Owned (Nominal.Flagged k) i.methods := by
  refine (owned_reaches h).imp ?_
  rintro o ⟨r, hr, rfl⟩
  exact (flagged_of_reaches hr hn).toAbsolute

/-! ## Plans -/

theorem core_superclassObjectSteps (c : Constant) (k : Bool) :
    (w.superclassObjectSteps c k).filterMap Step.core? = (w.base? c).toList.map fun a =>
      .mix (w.absoluteName (some c.path) ⟨.classObject false, a.path⟩) [] := by
  rw [filterMap_superclassObjectSteps fun _ => rfl, ← congrFun List.filterMap_eq_map]
  exact List.filterMap_congr fun a _ => congrArg (fun r => some (Step.mix r []))
    (withFlag_absoluteName (some c.path) ⟨.classObject k, a.path⟩ false)

/-- Apart from `new`, the class object has only the methods of its own. -/
theorem core_classMethodSteps (c : Constant) (k : Bool) (m : MethodDecl) :
    (w.classMethodSteps c k m).filterMap Step.core? =
      (w.classMethodSteps c false m).filterMap Step.core? := by
  have put : ∀ d : Definition, d.name = "new" → Step.core? (.put d) = none := fun _ h => if_pos h
  rw [filterMap_classMethodSteps (fun _ => rfl) put, filterMap_classMethodSteps (fun _ => rfl) put]
  rfl

theorem core_steps_classPlan (c : Constant) (k : Bool) :
    (w.classPlan k c).steps.filterMap Step.core? =
      (w.classPlan false c).steps.filterMap Step.core? := by
  have dropped : ∀ k : Bool, (if k then [] else [Step.drop "new"]).filterMap Step.core? = [] := by
    intro k
    cases k <;> rfl
  simp only [classPlan, List.filterMap_append, List.filterMap_flatMap, core_superclassObjectSteps,
    core_classMethodSteps c k, dropped]

theorem requests_classPlan_withFlag (c : Constant) (k k' : Bool) :
    (w.classPlan k' c).requests = (w.classPlan k c).requests.map (Nominal.withFlag k') := by
  have mixins : ∀ r ∈ (w.objectMixinSteps c).filterMap Step.request?, r.withFlag k' = r := by
    intro r hr
    rcases mem_requests_objectMixinSteps.mp hr with ⟨a, -, rfl⟩ | ⟨a, -, rfl⟩
    · exact flagged_absoluteName rfl
    · exact flagged_absoluteName rfl
  rw [requests_classPlan, requests_classPlan, List.map_cons, List.map_append, List.map_map,
    List.map_congr_left mixins, List.map_id']
  refine congrArg (w.absoluteName none ⟨.instances, w.roots.classClass⟩ :: · ++ _) ?_
  exact List.map_congr_left fun a _ => (withFlag_absoluteName (some c.path) ⟨.classObject k, a.path⟩ k').symm

/-- With another flag a plan requests the same with that flag, and does the same apart from `new`. -/
theorem exists_plan_withFlag (hp : w.plan n = .ok p) (k : Bool) :
    ∃ p', w.plan (n.withFlag k) = .ok p' ∧ p'.requests = p.requests.map (Nominal.withFlag k) ∧
      p'.core = p.core := by
  -- only the name of a class object changes
  have unchanged : n.Flagged k → ∃ p', w.plan (n.withFlag k) = .ok p' ∧
      p'.requests = p.requests.map (Nominal.withFlag k) ∧ p'.core = p.core := by
    intro hn
    have hsame : ∀ r ∈ p.requests, r.withFlag k = r := fun r hr =>
      flagged_of_dependsOn (dependsOn_of_request hp hr) hn
    refine ⟨p, hn.symm ▸ hp, ?_, rfl⟩
    rw [List.map_congr_left hsame, List.map_id']
  obtain ⟨facet, path⟩ := n
  cases facet with
  | instances | moduleObject | protocol => exact unchanged rfl
  | classObject k' =>
    obtain ⟨c, hc, rfl⟩ := exists_of_map_eq_ok hp
    refine ⟨w.classPlan k c, plan_classObject hc, requests_classPlan_withFlag c k' k, ?_⟩
    exact congrArg (Plan.mk _ _) ((core_steps_classPlan c k).trans (core_steps_classPlan c k').symm)

/-! ## Interfaces -/

/-- A name has an interface when what its plan requests has. -/
theorem exists_built_of_requests (hp : w.plan n = .ok p)
    (h : ∀ r ∈ p.requests, ∃ i, Built w r i) : ∃ i, Built w n i := by
  have hfound : ∀ r, ∃ i, r ∈ p.requests → Built w r i := by
    intro r
    by_cases hr : r ∈ p.requests
    · obtain ⟨i, hi⟩ := h r hr
      exact ⟨i, fun _ => hi⟩
    · exact ⟨.bare r, fun hr' => absurd hr' hr⟩
  obtain ⟨found, hfound⟩ := Classical.axiomOfChoice hfound
  exact ⟨p.assemble found, .intro found hp hfound⟩

theorem exists_built_withFlag (h : Built w n i) (k : Bool) : ∃ j, Built w (n.withFlag k) j := by
  induction h with
  | intro found hp hb ih =>
    obtain ⟨p', hp', hrequests, -⟩ := exists_plan_withFlag hp k
    refine exists_built_of_requests hp' ?_
    rw [hrequests]
    exact List.forall_mem_map.mpr ih

/-- The interfaces for two flags have the same core: by induction on how the first was built, what their
plans request has the same core. -/
theorem core_eq_core (hi : Built w n i) (hj : Built w (n.withFlag k) j) : i.core = j.core := by
  have owned : ∀ {n p found k}, w.plan n = .ok p → n.Flagged k →
      (∀ r ∈ p.requests, Built w r (found r)) → ∀ s ∈ p.steps, s.OwnedBy found (Nominal.Flagged k) :=
    fun hp hn hb => ownedBy_of_mem hp hn.toAbsolute fun r hr =>
      flagged_of_built (hb r hr) (flagged_of_dependsOn (dependsOn_of_request hp hr) hn)
  induction hi generalizing j with
  | @intro n p found hp hb ih =>
    obtain ⟨p', hp', hrequests, hcore⟩ := exists_plan_withFlag hp k
    cases hj with
    | intro found' hq hb' =>
      obtain rfl := Except.ok.inj (hp'.symm.trans hq)
      obtain ⟨k', hn⟩ := n.exists_flagged
      -- both plans see the same cores under the plain names
      let cores (r : Nominal) : Interface := (found (r.withFlag k')).core
      have hcores : ∀ r ∈ p.requests, cores r.plain = (found r).core := fun r hr =>
        have hr : r.Flagged k' := flagged_of_dependsOn (dependsOn_of_request hp hr) hn
        congrArg (fun r => (found r).core) hr.withFlag_plain
      have hcores' : ∀ r ∈ p'.requests, cores r.plain = (found' r).core := by
        intro r' hr'
        obtain ⟨r, hr, rfl⟩ := List.mem_map.mp (hrequests ▸ hr')
        rw [Nominal.plain_withFlag, hcores r hr]
        exact ih r hr (hb' _ hr')
      rw [Plan.core_assemble (owned hp hn hb) hcores,
        Plan.core_assemble (owned hp' (n.flagged_withFlag k) hb') hcores', hcore]

end World

/-! ## Failures -/

/-- The error with other names. -/
def LinkError.map (f : Nominal → Nominal) : LinkError → LinkError
  | .recursive chain => .recursive (chain.map f)
  | .unknown name cause => .unknown (f name) cause

/-- The error without flags. -/
def LinkError.plain (e : LinkError) : LinkError := e.map Nominal.plain

theorem LinkError.plain_map_withFlag (e : LinkError) (k : Bool) :
    (e.map (Nominal.withFlag k)).plain = e.plain := by
  cases e with
  | recursive chain =>
    refine congrArg LinkError.recursive ((List.map_map ..).trans (List.map_congr_left fun n _ => ?_))
    exact n.plain_withFlag k
  | unknown name cause => exact congrArg (LinkError.unknown · cause) (name.plain_withFlag k)

theorem LinkError.map_within (f : Nominal → Nominal) (n : Nominal) (e : LinkError) :
    (e.within n).map f = (e.map f).within (f n) := by
  cases e <;> rfl

namespace World

variable {w : World} {n : Nominal} {k k' : Bool}

/-- Whether there is a plan does not depend on the flag, nor does the reason why there is none. -/
theorem plan_withFlag_eq_error {cause : LookupError} (h : w.plan n = .error cause) (k : Bool) :
    w.plan (n.withFlag k) = .error cause := by
  obtain ⟨facet, path⟩ := n
  cases facet with
  | instances | moduleObject | protocol => exact h
  | classObject k' =>
    have hfind : w.decls.findKind .cls none path = .error cause := eq_error_of_map_eq_error h
    change (w.decls.findKind .cls none path).map _ = _
    rw [hfind]
    rfl

/-- Frames with another flag are the same frames. -/
theorem mem_map_withFlag_iff {frames : List Nominal} (hn : n.Flagged k)
    (hf : ∀ f ∈ frames, f.Flagged k) : n.withFlag k' ∈ frames.map (Nominal.withFlag k') ↔ n ∈ frames := by
  constructor
  · intro h
    obtain ⟨f, hmem, heq⟩ := List.mem_map.mp h
    have hplain : f.plain = n.plain := by
      rw [← f.plain_withFlag k', heq, n.plain_withFlag]
    exact (hf f hmem).eq_of_plain_eq hn hplain ▸ hmem
  · exact List.mem_map_of_mem

end World

/-- A failure with one flag is a failure with the other. -/
theorem Fails.withFlag {w : World} {frames : List Nominal} {n : Nominal} {e : LinkError} {k : Bool}
    (h : Fails w frames n e) (hn : n.Flagged k) (hf : ∀ f ∈ frames, f.Flagged k) (k' : Bool) :
    Fails w (frames.map (Nominal.withFlag k')) (n.withFlag k') (e.map (Nominal.withFlag k')) := by
  induction h with
  | cycle entered => exact .cycle (List.mem_map_of_mem entered)
  | unknown fresh noPlan =>
    refine .unknown ?_ (World.plan_withFlag_eq_error noPlan k')
    rwa [World.mem_map_withFlag_iff hn hf]
  | @request frames n r p before after e fresh plan split built fails ih =>
    obtain ⟨p', hp', hrequests, -⟩ := World.exists_plan_withFlag plan k'
    have hr := World.flagged_of_dependsOn (World.dependsOn_of_split plan split) hn
    have hframes : ∀ f ∈ n :: frames, f.Flagged k := List.forall_mem_cons.mpr ⟨hn, hf⟩
    rw [split, List.map_append, List.map_cons] at hrequests
    rw [LinkError.map_within]
    refine .request ?_ hp' hrequests (List.forall_mem_map.mpr fun q hq => ?_) (ih hr hframes)
    · rwa [World.mem_map_withFlag_iff hn hf]
    · obtain ⟨i, hi⟩ := built q hq
      exact World.exists_built_withFlag hi k'

/-! ## The two objects of a class -/

namespace World

/-- Whatever was asked before, the object of a class that can construct and the one that cannot are
built both or neither. If they are, they differ in the flag and in `new`, which the second does not have;
if not, the errors differ in the flag at most. -/
theorem interfaceOf_classObject (w : World) (history history' : List Operation) (scope : Option Path)
    (p : Path) :
    match (w.interfaceOf scope ⟨.classObject true, p⟩ (w.after history)).1,
      (w.interfaceOf scope ⟨.classObject false, p⟩ (w.after history')).1 with
    | .ok i, .ok j =>
      i.name.plain = j.name.plain ∧ i.params = j.params ∧ i.supers = j.supers ∧
        (i.methods.erase "new").map Method.plain = j.methods.map Method.plain ∧
        "new" ∉ j.methods.keys
    | .error e, .error e' => e.plain = e'.plain
    | _, _ => False := by
  have hflag : (w.absoluteName scope ⟨.classObject true, p⟩).withFlag false =
      w.absoluteName scope ⟨.classObject false, p⟩ :=
    withFlag_absoluteName scope ⟨.classObject true, p⟩ false
  have hflagged : (w.absoluteName scope ⟨.classObject true, p⟩).Flagged true := flagged_absoluteName rfl
  rw [fst_interfaceOf, fst_interfaceOf]
  have hm := isOpen_note_after (w := w) history
  have hm' := isOpen_note_after (w := w) history'
  rcases hi : (w.link (w.absoluteName scope ⟨.classObject true, p⟩) _).1 with e | ⟨i, hi'⟩
  · have hfails := (fails_of_closed (hm _) hi).withFlag hflagged (List.forall_mem_nil _) false
    rw [hflag] at hfails
    rcases hj : (w.link (w.absoluteName scope ⟨.classObject false, p⟩) _).1 with e' | ⟨j, hj'⟩
    · have heq := hfails.unique (fails_of_closed (hm' _) hj) (List.forall_mem_nil _)
      exact heq ▸ (e.plain_map_withFlag false).symm
    · exact hfails.not_built (List.forall_mem_nil _) hj'
  · obtain ⟨j, hj⟩ := exists_built_withFlag hi' false
    have hcore := core_eq_core hi' hj
    rw [hflag] at hj
    rw [link_ok_of_built (hm' _) hj]
    have hnew : "new" ∉ j.methods.keys := by
      rw [absoluteName_classObject scope p true false] at hj
      exact new_not_mem_keys hj
    obtain ⟨hname, hparams, hmethods, hsupers⟩ := Interface.mk.inj hcore
    refine ⟨hname, hparams, hsupers, ?_, hnew⟩
    rwa [MethodTable.core, MethodTable.core, Table.erase_of_not_mem hnew] at hmethods

end World

end MixinTypes
