import MixinTypes.Proofs.Assignability.Decision
import MixinTypes.Proofs.Linking.Outcome

/-!
# Worlds that look up alike

The declarations of a world are seen through look-ups alone: the constant and the protocol at a path, and
the extensions of a path. Worlds that agree on these agree on everything that can be asked.

1. They resolve names alike and have the same plans (`World.Agrees.plan_eq`).
2. So the same interfaces are built in them, names fail to link for the same reasons, and the same types are
   assignable, each by induction on the rules (`Built.of_agrees`, `Fails.of_agrees`, `Assignable.of_agrees`).
3. What is answered follows from these, whatever was asked before in one world or the other
   (`interfaceOf_eq`, `test_eq`, `callee_eq`).
-/

namespace MixinTypes

namespace Declarations

/-- The same is found at each path. -/
structure Agrees (d d' : Declarations) : Prop where
  constantAt? : ∀ p, d.constantAt? p = d'.constantAt? p
  protocolAt? : ∀ p, d.protocolAt? p = d'.protocolAt? p
  extensionsOf : ∀ p, d.extensionsOf p = d'.extensionsOf p

namespace Agrees

variable {d d' : Declarations} (h : d.Agrees d')

include h

theorem symm : d'.Agrees d :=
  ⟨fun p => (h.constantAt? p).symm, fun p => (h.protocolAt? p).symm, fun p => (h.extensionsOf p).symm⟩

theorem resolve?_eq (scope : Option Path) (p : Path) : d.resolve? scope p = d'.resolve? scope p := by
  unfold resolve?
  simp only [h.constantAt?]

theorem find_eq (scope : Option Path) (p : Path) : d.find scope p = d'.find scope p := by
  unfold find
  rw [h.resolve?_eq]

theorem findKind_eq (kind : ConstantKind) (scope : Option Path) (p : Path) :
    d.findKind kind scope p = d'.findKind kind scope p := by
  unfold findKind
  rw [h.find_eq]

theorem findProtocol_eq (p : Path) : d.findProtocol p = d'.findProtocol p := by
  unfold findProtocol
  rw [h.protocolAt?]

end Agrees

end Declarations

namespace World

/-- The two worlds have the same roots, and the same is found in them at each path. -/
structure Agrees (w w' : World) : Prop where
  decls : w.decls.Agrees w'.decls
  roots : w.roots = w'.roots

namespace Agrees

variable {w w' : World} (h : w.Agrees w')

include h

theorem symm : w'.Agrees w := ⟨h.decls.symm, h.roots.symm⟩

/-! ## Names and plans -/

theorem locate_eq : w.locate = w'.locate := by
  funext scope n
  unfold locate
  simp only [h.decls.find_eq, h.decls.findKind_eq]

theorem absoluteName_eq : w.absoluteName = w'.absoluteName := by
  funext scope n
  unfold absoluteName
  rw [h.locate_eq]

theorem unresolved?_eq : w.unresolved? = w'.unresolved? := by
  funext scope n
  unfold unresolved?
  rw [h.locate_eq]

theorem absoluteTy_eq : w.absoluteTy = w'.absoluteTy := by
  funext scope t
  unfold absoluteTy
  rw [h.absoluteName_eq]

theorem unresolvedIn_eq : w.unresolvedIn = w'.unresolvedIn := by
  funext scope t
  unfold unresolvedIn
  rw [h.unresolved?_eq]

theorem base?_eq : w.base? = w'.base? := by
  funext c
  unfold base?
  rw [h.roots]

theorem mixinSteps_eq : w.mixinSteps = w'.mixinSteps := by
  funext scope facet a
  unfold mixinSteps noteTypes noteName
  rw [h.absoluteName_eq, h.absoluteTy_eq, h.unresolved?_eq, h.unresolvedIn_eq]

theorem definition_eq : w.definition = w'.definition := by
  funext scope owner m
  unfold definition overload
  rw [h.absoluteTy_eq]

theorem noteSignatures_eq : w.noteSignatures = w'.noteSignatures := by
  funext scope result ss
  unfold noteSignatures unresolvedInSignature
  rw [h.unresolvedIn_eq]

theorem defineSteps_eq : w.defineSteps = w'.defineSteps := by
  funext scope owner m
  unfold defineSteps
  rw [h.noteSignatures_eq, h.definition_eq]

theorem objectMixinSteps_eq : w.objectMixinSteps = w'.objectMixinSteps := by
  funext c
  unfold objectMixinSteps
  rw [h.mixinSteps_eq]

theorem selfTypeSteps_eq : w.selfTypeSteps = w'.selfTypeSteps := by
  funext c
  unfold selfTypeSteps noteTypes
  rw [h.absoluteTy_eq, h.unresolvedIn_eq]

theorem superclassSteps_eq : w.superclassSteps = w'.superclassSteps := by
  funext c
  unfold superclassSteps noteTypes noteName
  rw [h.base?_eq, h.absoluteName_eq, h.absoluteTy_eq, h.unresolved?_eq, h.unresolvedIn_eq]

theorem superclassObjectSteps_eq : w.superclassObjectSteps = w'.superclassObjectSteps := by
  funext c k
  unfold superclassObjectSteps noteName
  rw [h.base?_eq, h.absoluteName_eq, h.unresolved?_eq]

theorem classMethodSteps_eq : w.classMethodSteps = w'.classMethodSteps := by
  funext c k m
  unfold classMethodSteps overload
  rw [h.defineSteps_eq, h.noteSignatures_eq, h.absoluteTy_eq]

theorem instancePlan_eq : w.instancePlan = w'.instancePlan := by
  funext c
  unfold instancePlan
  rw [h.superclassSteps_eq, h.selfTypeSteps_eq, h.mixinSteps_eq, h.defineSteps_eq, h.decls.extensionsOf]

theorem modulePlan_eq : w.modulePlan = w'.modulePlan := by
  funext c
  unfold modulePlan
  rw [h.selfTypeSteps_eq, h.objectMixinSteps_eq, h.defineSteps_eq, h.roots]

theorem classPlan_eq : w.classPlan = w'.classPlan := by
  funext k c
  unfold classPlan
  rw [h.superclassObjectSteps_eq, h.objectMixinSteps_eq, h.classMethodSteps_eq, h.roots]

theorem protocolPlan_eq : w.protocolPlan = w'.protocolPlan := by
  funext q
  unfold protocolPlan
  rw [h.definition_eq]

theorem plan_eq : w.plan = w'.plan := by
  funext n
  unfold plan
  rw [h.decls.find_eq, h.decls.findKind_eq, h.decls.findKind_eq, h.decls.findProtocol_eq,
    h.instancePlan_eq, h.modulePlan_eq, h.classPlan_eq, h.protocolPlan_eq]

/-! ## Ancestors -/

theorem parents_eq : w.parents = w'.parents := by
  funext p
  unfold parents
  rw [h.decls.constantAt?, h.base?_eq]
  simp only [h.decls.resolve?_eq]

theorem visit_eq (seen stack : List Path) : w.visit seen stack = w'.visit seen stack := by
  induction seen, stack using visit.induct w with
  | case1 seen => rw [visit, visit]
  | case2 seen p stack hs ih => rw [visit, if_pos hs, visit, if_pos hs, ih]
  | case3 seen p stack hs ih => rw [visit, if_neg hs, visit, if_neg hs, ih, h.parents_eq]

theorem ancestors_eq (p : Path) : w.ancestors p = w'.ancestors p := h.visit_eq [] [p.toAbsolute]

end Agrees

end World

/-! ## The rules -/

section Rules

variable {w w' : World} {n : Nominal} {i : Interface} {frames : List Nominal} {e : LinkError} {s t : Ty}
  (h : w.Agrees w')

include h

theorem Built.of_agrees (hi : Built w n i) : Built w' n i := by
  induction hi with
  | intro found plan _ ih =>
    rw [h.plan_eq] at plan
    exact .intro found plan ih

theorem Fails.of_agrees (hf : Fails w frames n e) : Fails w' frames n e := by
  induction hf with
  | cycle entered => exact .cycle entered
  | unknown fresh noPlan =>
    rw [h.plan_eq] at noPlan
    exact .unknown fresh noPlan
  | request fresh plan split built _ ih =>
    rw [h.plan_eq] at plan
    exact .request fresh plan split (fun q hq => (built q hq).imp fun _ hi => hi.of_agrees h) ih

theorem Assignable.of_agrees (ha : Assignable w s t) : Assignable w' s t := by
  induction ha with
  | anySource => exact .anySource
  | anyDest => exact .anyDest
  | refl => exact .refl
  | unionSource _ ih => exact .unionSource ih
  | unionDest source mem _ ih => exact .unionDest source mem ih
  | interDest source _ ih => exact .interDest source ih
  | interSource notUnion notInter mem _ ih => exact .interSource notUnion notInter mem ih
  | sameDeclaration akin same length _ _ forth back => exact .sameDeclaration akin same length forth back
  | ancestor akin other mem =>
    rw [h.ancestors_eq] at mem
    exact .ancestor akin other mem
  | furtherType akin other foreign built mem proper _ ih =>
    rw [h.ancestors_eq] at foreign
    exact .furtherType akin other foreign (built.of_agrees h) mem proper ih
  | protocol target builtRequired builtProvided methods =>
    exact .protocol target (builtRequired.of_agrees h) (builtProvided.of_agrees h) methods
  | moduleObject source target same => exact .moduleObject source target same

end Rules

/-! ## Answers -/

namespace World.Agrees

variable {w w' : World} {m : Memo w} {m' : Memo w'}

/-- While nothing is in progress, linking gives the same interface or the same error in both worlds. -/
theorem link_eq (h : w.Agrees w') (hm : m.Idle) (hm' : m'.Idle) (n : Nominal) :
    (w.link n m).1.map Subtype.val = (w'.link n m').1.map Subtype.val := by
  rcases hlink : (w.link n m).1 with e | ⟨i, hi⟩
  · rcases hlink' : (w'.link n m').1 with e' | ⟨j, hj⟩
    · have hfails := (fails_of_closed hm hlink).of_agrees h
      rw [hfails.unique (fails_of_closed hm' hlink') (List.forall_mem_nil _)]
      rfl
    · rw [link_ok_of_built hm (hj.of_agrees h.symm)] at hlink
      cases hlink
  · rw [link_ok_of_built hm' (hi.of_agrees h)]
    rfl

theorem interfaceOf_eq (h : w.Agrees w') (hm : m.Idle) (hm' : m'.Idle) (scope : Option Path)
    (n : Nominal) : (w.interfaceOf scope n m).1 = (w'.interfaceOf scope n m').1 := by
  rw [fst_interfaceOf, fst_interfaceOf, h.absoluteName_eq]
  exact h.link_eq (fun k => (Memo.isOpen_note ..).trans (hm k)) (fun k => (Memo.isOpen_note ..).trans (hm' k)) _

theorem callee_eq (h : w.Agrees w') (hm : m.Idle) (hm' : m'.Idle) (t : Ty) (method : String) :
    (w.callee t method m).1 = (w'.callee t method m').1 := by
  cases t with
  | named n args => rw [fst_callee_named, fst_callee_named, h.link_eq hm hm']
  | _ => rfl

theorem test_eq (h : w.Agrees w') {s : Inquiry w} {s' : Inquiry w'} (hs : s.memo.Idle) (ha : s.asking = [])
    (hs' : s'.memo.Idle) (ha' : s'.asking = []) (src dest : Ty) :
    (w.test src dest s).1 = (w'.test src dest s').1 := by
  rw [Bool.eq_iff_iff, test_iff hs ha, test_iff hs' ha']
  exact ⟨fun hab => hab.of_agrees h, fun hab => hab.of_agrees h.symm⟩

end World.Agrees

end MixinTypes
