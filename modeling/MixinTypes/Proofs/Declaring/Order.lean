import Mathlib.Data.List.Nodup
import Mathlib.Data.List.Perm.Basic
import MixinTypes.Proofs.Declaring.Agreement

/-!
# The order of declarations

Declarations can be added in any order, as long as the extensions of each constant keep theirs.

1. What a collection holds after adding a list of declarations is the list, sorted by kind
   (`Declarations.eq_of_addAll`).
2. At most one constant and one protocol has a given path, so looking them up does not depend on the order
   (`Declarations.find?_eq_of_perm`), and two collections made of the same declarations agree
   (`Declarations.agrees_of_perm`).
3. Worlds that agree answer alike (`answers_eq_of_perm`).
-/

namespace MixinTypes

namespace Declarations

/-- Where keys are not repeated, looking one up does not depend on the order. -/
theorem find?_eq_of_perm {α κ : Type} [DecidableEq κ] {f : α → κ} {xs ys : List α} (h : xs.Perm ys)
    (hn : (xs.map f).Nodup) (k : κ) :
    xs.find? (fun x => f x = k) = ys.find? (fun x => f x = k) := by
  have hn' : (ys.map f).Nodup := (h.map f).nodup_iff.mp hn
  refine Option.ext fun x => ?_
  rw [find?_eq_some_iff_of_nodup hn, find?_eq_some_iff_of_nodup hn', h.mem_iff]

variable {d d' : Declarations} {xs ys : List Declaration}

/-- The extensions of the constant at `p` in a list of declarations, in their order. -/
def extensionsIn (xs : List Declaration) (p : Path) : List Extension :=
  (xs.filterMap Declaration.extension?).filter fun e => e.target.toAbsolute = p.toAbsolute

/-- When all declarations are added, the collection holds them at their absolute paths, each kind in the
order of the list. -/
theorem eq_of_addAll (h : d.addAll xs = (d', .ok ())) :
    d'.constants = d.constants ++ (xs.filterMap Declaration.constant?).map Constant.atRoot ∧
      d'.protocols = d.protocols ++ (xs.filterMap Declaration.protocol?).map Protocol.atRoot ∧
      d'.extensions = d.extensions ++ (xs.filterMap Declaration.extension?).map Extension.atRoot := by
  induction xs generalizing d with
  | nil =>
    obtain rfl := (Prod.mk.inj h).1
    exact ⟨(List.append_nil _).symm, (List.append_nil _).symm, (List.append_nil _).symm⟩
  | cons x xs ih =>
    unfold addAll at h
    split at h
    · cases h
    · next hadd =>
      obtain ⟨hconstants, hprotocols, hextensions⟩ := eq_of_add hadd
      obtain ⟨hc, hp, he⟩ := ih h
      rw [hc, hp, he, hconstants, hprotocols, hextensions]
      cases x <;> simp [List.filterMap_cons, Declaration.constant?, Declaration.protocol?, Declaration.extension?]

theorem extensionsOf_addAll (h : d.addAll xs = (d', .ok ())) (p : Path) :
    d'.extensionsOf p = d.extensionsOf p ++ (extensionsIn xs p).map Extension.atRoot := by
  unfold extensionsOf
  rw [(eq_of_addAll h).2.2, extensionsIn, List.filter_append, List.filter_map]
  rfl

/-- The same declarations in another order, the extensions of each constant in the same order. -/
theorem agrees_of_perm (hperm : xs.Perm ys) (hx : empty.addAll xs = (d, .ok ()))
    (hy : empty.addAll ys = (d', .ok ())) (hext : ∀ p, extensionsIn xs p = extensionsIn ys p) :
    d.Agrees d' := by
  obtain ⟨hcx, hpx, -⟩ := eq_of_addAll hx
  obtain ⟨hcy, hpy, -⟩ := eq_of_addAll hy
  have hconstants : d.constants.Perm d'.constants := by
    rw [hcx, hcy]
    exact ((hperm.filterMap _).map _).append_left _
  have hprotocols : d.protocols.Perm d'.protocols := by
    rw [hpx, hpy]
    exact ((hperm.filterMap _).map _).append_left _
  refine ⟨fun p => find?_eq_of_perm hconstants d.constants_nodup p,
    fun p => find?_eq_of_perm hprotocols d.protocols_nodup p, fun p => ?_⟩
  rw [extensionsOf_addAll hx, extensionsOf_addAll hy, hext]

end Declarations

namespace World

/-- The same declarations in two orders, added without a clash, with the extensions of each constant in one
order. The same is found under every name, and with equal roots everything that is asked has the same answer,
in new sessions and at any later time: interfaces and the errors in their place, ancestors, tests, and the
overloads of calls. -/
theorem answers_eq_of_perm {xs ys : List Declaration} {d d' : Declarations} (hperm : xs.Perm ys)
    (hx : Declarations.empty.addAll xs = (d, .ok ())) (hy : Declarations.empty.addAll ys = (d', .ok ()))
    (hext : ∀ p, Declarations.extensionsIn xs p = Declarations.extensionsIn ys p) :
    (∀ scope p, d.find scope p = d'.find scope p) ∧
      (∀ kind scope p, d.findKind kind scope p = d'.findKind kind scope p) ∧
      (∀ p, d.findProtocol p = d'.findProtocol p) ∧ (∀ p, d.extensionsOf p = d'.extensionsOf p) ∧
      ∀ roots, let w : World := ⟨d, roots⟩; let w' : World := ⟨d', roots⟩
        (∀ p, w.ancestors p = w'.ancestors p) ∧
          ∀ history history', let s := w.inquiry history; let s' := w'.inquiry history'
            (∀ scope n, (w.interfaceOf scope n s.memo).1 = (w'.interfaceOf scope n s'.memo).1) ∧
              (∀ src dest, (w.test src dest s).1 = (w'.test src dest s').1) ∧
              ∀ t method, (w.callee t method s.memo).1 = (w'.callee t method s'.memo).1 := by
  have hd := Declarations.agrees_of_perm hperm hx hy hext
  refine ⟨hd.find_eq, hd.findKind_eq, hd.findProtocol_eq, hd.extensionsOf, fun roots => ?_⟩
  intro w w'
  have h : w.Agrees w' := ⟨hd, rfl⟩
  refine ⟨h.ancestors_eq, fun history history' => ⟨?_, ?_, ?_⟩⟩
  · exact h.interfaceOf_eq (idle_inquiry history) (idle_inquiry history')
  · exact h.test_eq (idle_inquiry history) (asking_inquiry history) (idle_inquiry history')
      (asking_inquiry history')
  · exact h.callee_eq (idle_inquiry history) (idle_inquiry history')

/-- A class and what it stands on. -/
def gadget : List Declaration :=
  [.constant ⟨⟨["BasicObject"], true⟩, [], [], .nowhere, .cls none⟩,
   .constant ⟨⟨["Object"], true⟩, [], [], .nowhere, .cls (some ⟨⟨["BasicObject"], true⟩, []⟩)⟩,
   .constant ⟨⟨["Gadget"], true⟩, [], [], .nowhere, .cls none⟩]

/-- Two extensions of the class that both define one method. -/
def gadgetExtensions : List Declaration :=
  [.extension ⟨⟨["Gadget"], true⟩, "first",
    [.method ⟨"run", .instances, [⟨[], [], none, .any, .nowhere⟩], []⟩], .nowhere⟩,
   .extension ⟨⟨["Gadget"], true⟩, "second",
    [.method ⟨"run", .instances, [⟨[], [], none, .self, .nowhere⟩], []⟩], .nowhere⟩]

/-- The extensions can be added before what they extend, and that in any order. -/
theorem answers_eq_of_perm_gadget :
    let w : World := ⟨(Declarations.empty.addAll (gadget ++ gadgetExtensions)).1, .standard⟩
    let w' : World := ⟨(Declarations.empty.addAll (gadgetExtensions ++ gadget.reverse)).1, .standard⟩
    ∃ i, (w.interfaceOf none ⟨.instances, ⟨["Gadget"], true⟩⟩ (.empty w)).1 = .ok i ∧
      (w'.interfaceOf none ⟨.instances, ⟨["Gadget"], true⟩⟩ (.empty w')).1 = .ok i ∧
      i.methods.keys = ["run"] := by
  intro w w'
  have hperm : (gadget ++ gadgetExtensions).Perm (gadgetExtensions ++ gadget.reverse) :=
    List.perm_append_comm.trans (gadget.reverse_perm.symm.append_left _)
  have hx : Declarations.empty.addAll (gadget ++ gadgetExtensions) = (w.decls, .ok ()) := rfl
  have hy : Declarations.empty.addAll (gadgetExtensions ++ gadget.reverse) = (w'.decls, .ok ()) := rfl
  obtain ⟨-, -, -, -, hanswers⟩ := answers_eq_of_perm hperm hx hy fun p =>
    congrArg (List.filter fun e : Extension => e.target.toAbsolute = p.toAbsolute) rfl
  obtain ⟨-, hanswers⟩ := hanswers .standard
  have hkeys : ((w.interfaceOf none ⟨.instances, ⟨["Gadget"], true⟩⟩ (.empty w)).1.toOption.map
      fun i => i.methods.keys) = some ["run"] := by
    decide +kernel
  obtain ⟨i, hi, heq⟩ := Option.map_eq_some_iff.mp hkeys
  have hi := eq_ok_of_toOption_eq_some hi
  exact ⟨i, hi, ((hanswers [] []).1 none _).symm.trans hi, heq⟩

end World

end MixinTypes
