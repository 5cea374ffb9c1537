import Mathlib.Data.List.Nodup
import MixinTypes.Assignable.Session
import MixinTypes.Proofs.Assignability.Decision
import MixinTypes.Proofs.Checking.Account

/-!
# The types of a program explain its faults

Checking a program whose nodes have different numbers gives types to exactly the nodes that are
evaluated, and the faults found on the way are those that `Answers.faultsAt` tells from the finished
types, node by node.

The walk is followed by induction on the tree. For a call the pieces of work are those for its
receiver, the faults of its shape, the work for its arguments and the comparison of the arguments with
the parameters; `Accounts` puts them together. For the world the oracle is steady because its answers
do not depend on what it was asked before.
-/

namespace MixinTypes

/-- Evaluation meets nodes in the order of the text. -/
theorem Node.walked_sublist_preorder (n : Node) : n.walked.Sublist n.preorder := by
  induction n using Node.induction with
  | step n ih =>
    rw [walked_eq, preorder_eq]
    refine List.Sublist.cons_cons n ?_
    have hsub := n.evaluated_sublist_children
    exact (List.Sublist.flatMap_right n.evaluated fun c hc => ih c (hsub.subset hc)).trans
      (hsub.flatMap preorder)

namespace Oracle

variable {σ : Type} {o : Oracle σ} {good : σ → Prop} {k : Answers} {host : Ty}

/-- From `c` on, `n` has been evaluated with the result `r`: what this takes is accounted for, and the
type of `n` has been noted. -/
structure Evaluates (k : Answers) (host : Ty) (good : σ → Prop) (n : Node) (c : Checking σ)
    (r : Ty × Checking σ) : Prop where
  accounts : Accounts k host good n.walked (k.faultsOf host n.walked) c r.2
  noted : r.2.typeOf? n = some r.1

/-- Walking evaluates `n`. -/
def Covers (o : Oracle σ) (good : σ → Prop) (k : Answers) (host : Ty) (n : Node) : Prop :=
  ∀ c, good c.oracle → (n.walked.map Node.id).Nodup → Evaluates k host good n c (o.walk host n c)

theorem accounts_walkSeq {ns : List Node} (h : ∀ n ∈ ns, o.Covers good k host n) (last : Ty)
    {c : Checking σ} (hc : good c.oracle) (hn : ((ns.flatMap Node.walked).map Node.id).Nodup) :
    Accounts k host good (ns.flatMap Node.walked) (k.faultsOf host (ns.flatMap Node.walked)) c
      (o.walkSeq host last ns c).2 := by
  induction ns generalizing last c with
  | nil => exact .nil hc
  | cons n ns ih =>
    rw [List.flatMap_cons, List.map_append, List.nodup_append'] at hn
    have first := (h n (List.mem_cons_self ..) c hc hn.1).accounts
    have rest := ih (fun m hm => h m (List.mem_cons_of_mem n hm)) (o.walk host n c).1 first.good hn.2.1
    have both := first.append rest hn.2.2
    simp only [← Answers.faultsOf_append] at both
    rw [List.flatMap_cons]
    unfold walkSeq
    exact both

/-- A call, once its receiver has been evaluated and has the type `t`. -/
theorem evaluates_call (ho : o.Steady good k) {site : Site} {receiver : Option Node} {method : String}
    {args : List Node} (hargs : ∀ n ∈ args, o.Covers good k host n) {t : Ty} {c c' : Checking σ}
    (hr : Accounts k host good (receiver.toList.flatMap Node.walked)
      (k.faultsOf host (receiver.toList.flatMap Node.walked)) c c')
    (ht : ∀ τ, c'.Agrees (receiver.toList.flatMap Node.walked) τ →
      Answers.receiverType host τ receiver = t)
    (hn : ((Node.call site receiver method args).walked.map Node.id).Nodup) :
    let opened := c'.openCall o site t method args
    let inner := (o.walkSeq host .any args opened.2).2
    let closed := inner.closeCall o opened.1 args
    Evaluates k host good (.call site receiver method args) c (closed.2.record site closed.1) := by
  intro opened inner closed
  have hwalked : (Node.call site receiver method args).walked =
      .call site receiver method args ::
        (receiver.toList.flatMap Node.walked ++ args.flatMap Node.walked) := by
    rw [Node.walked_eq, ← List.flatMap_append]
    rfl
  rw [hwalked, List.map_cons, List.nodup_cons, List.map_append, List.nodup_append'] at hn
  obtain ⟨hself, -, hn, hd⟩ := hn
  obtain ⟨hcallee, hopen⟩ := Checking.reports_openCall ho hr.good site t method args
  have hinner := accounts_walkSeq hargs .any hopen.good hn
  obtain ⟨htype, hclose⟩ := Checking.reports_closeCall ho hinner.good opened.1 args
  -- types that agree with the finished arguments agree with the receiver before them
  have agrees : ∀ τ, inner.Agrees (receiver.toList.flatMap Node.walked ++ args.flatMap Node.walked) τ →
      c'.Agrees (receiver.toList.flatMap Node.walked) τ :=
    fun τ hτ => (hinner.agrees_of_append hd hτ).of_types_eq hopen.types
  have shape := hr.report (g := fun τ => callFaults (k.calleeOf host τ receiver method)
    (Answers.receiverType host τ receiver) method site args) hopen
    fun τ hτ => by rw [Answers.calleeOf, ht τ hτ]
  have before := shape.append hinner hd
  have whole := before.report (g := fun τ => (k.calleeOf host τ receiver method).elim []
    fun v => k.pairFaults τ (v.formals.pairs args)) hclose fun τ hτ => by
      rw [hcallee, Answers.calleeOf, ht τ (agrees τ hτ)]
      cases k.callee t method with
      | none => rfl
      | some v =>
        refine k.pairFaults_congr fun p hp => ?_
        exact hτ.typeOf (List.mem_append_right _ (Formals.mem_walked_of_mem_pairs hp))
  refine ⟨?_, Checking.typeOf?_record ..⟩
  rw [hwalked]
  refine whole.record (n := .call site receiver method args) ?_ ?_ ?_
  · rwa [← List.map_append] at hself
  · intro τ hτ hcall
    have hrt := ht τ (agrees τ (hτ.of_types_eq hclose.types))
    change τ (.call site receiver method args) = k.callType host τ receiver method
    rw [hcall, htype, hcallee, Answers.callType, Answers.calleeOf, hrt]
  · intro τ _ _
    rw [Answers.faultsOf_cons, Answers.faultsOf_append, Answers.faultsAt_call, List.perm_iff_count]
    intro fault
    simp only [List.count_append]
    omega

/-- A node without faults of its own, once what it needs has been evaluated. -/
theorem evaluates_plain {n : Node} {t : Ty} {c c' : Checking σ}
    (h : Accounts k host good (n.evaluated.flatMap Node.walked)
      (k.faultsOf host (n.evaluated.flatMap Node.walked)) c c')
    (hn : (n.walked.map Node.id).Nodup) (hcall : ∀ τ, k.TypesCall host τ n)
    (hfaults : ∀ τ, k.faultsAt host τ n = []) :
    Evaluates k host good n c (c'.record n.site t) := by
  refine ⟨?_, Checking.typeOf?_record ..⟩
  rw [Node.walked_eq] at hn ⊢
  refine h.record (List.nodup_cons.mp hn).1 (fun τ _ _ => hcall τ) fun τ _ _ => ?_
  rw [Answers.faultsOf_cons, hfaults, List.nil_append]

theorem nodup_evaluated {n : Node} (hn : (n.walked.map Node.id).Nodup) :
    ((n.evaluated.flatMap Node.walked).map Node.id).Nodup := by
  rw [Node.walked_eq, List.map_cons, List.nodup_cons] at hn
  exact hn.2

/-- An assignment, once its value has been evaluated. -/
theorem evaluates_assign (ho : o.Steady good k) {site : Site} {name : String} {value : Node}
    {c : Checking σ} {r : Ty × Checking σ} (h : Evaluates k host good value c r)
    (hn : ((Node.assign site name value).walked.map Node.id).Nodup) :
    let assigned := r.2.assign o site name r.1
    Evaluates k host good (.assign site name value) c (assigned.2.record site assigned.1) := by
  intro assigned
  have hreport := Checking.reports_assign ho h.accounts.good site name r.1
  have value_eq : ∀ τ, r.2.Agrees value.walked τ → τ value = r.1 := fun τ hτ =>
    Option.some.inj ((hτ value value.self_mem_walked).symm.trans h.noted)
  have whole := h.accounts.report (g := fun τ => if k.accepts (τ value) assigned.1 then []
    else [⟨site, .incompatibleAssignment assigned.1 (τ value)⟩]) hreport
    fun τ hτ => by rw [value_eq τ hτ]
  refine ⟨?_, Checking.typeOf?_record ..⟩
  refine whole.record (n := .assign site name value) (List.nodup_cons.mp hn).1
    (fun _ _ => fun _ => trivial) fun τ _ hassigned => ?_
  rw [Node.walked, Answers.faultsOf_cons, Answers.faultsAt, hassigned]
  exact List.perm_append_comm

/-- Walking evaluates every node. -/
theorem covers (ho : o.Steady good k) (n : Node) : o.Covers good k host n := by
  induction n using Node.induction with
  | step n ih =>
    intro c hc hn
    have hrest := nodup_evaluated hn
    cases n with
    | seq site body =>
      exact evaluates_plain (accounts_walkSeq ih .any hc hrest) hn (fun _ => trivial) fun _ => rfl
    | assign site name value =>
      rw [Node.evaluated, List.flatMap_singleton] at hrest
      exact evaluates_assign ho (ih value (List.mem_singleton_self value) c hc hrest) hn
    | read | lit | unsupported =>
      exact evaluates_plain (.nil hc) hn (fun _ => trivial) fun _ => rfl
    | call site receiver method args =>
      have hargs : ∀ n ∈ args, o.Covers good k host n := fun n hm =>
        ih n (List.mem_append_right receiver.toList hm)
      cases receiver with
      | none => exact evaluates_call ho hargs (.nil hc) (fun _ _ => rfl) hn
      | some r =>
        rw [Node.evaluated, List.flatMap_append, List.map_append] at hrest
        have hr := (List.nodup_append'.mp hrest).1
        rw [Option.toList_some, List.flatMap_singleton] at hr
        obtain ⟨inner, htype⟩ := ih r (List.mem_cons_self ..) c hc hr
        rw [← List.flatMap_singleton Node.walked r] at inner
        refine evaluates_call ho hargs inner (fun τ hτ => ?_) hn
        have hτr := hτ r (List.mem_append_left [] r.self_mem_walked)
        exact Option.some.inj (hτr.symm.trans htype)
    | hash site elements =>
      exact evaluates_plain (accounts_walkSeq ih .any hc hrest) hn (fun _ => trivial) fun _ => rfl
    | pair site key value =>
      rw [Node.evaluated, List.flatMap_singleton] at hrest
      have inner := (ih value (List.mem_cons_of_mem key (List.mem_singleton_self value)) c hc
        hrest).accounts
      rw [← List.flatMap_singleton Node.walked value] at inner
      exact evaluates_plain inner hn (fun _ => trivial) fun _ => rfl

end Oracle

namespace World

variable {w : World} {m : Memo w}

theorem steady_oracle (hm : m.Idle) : w.oracle.Steady Memo.Idle (w.oracle.answers m) where
  accepts_self t := by
    have h := (decides_test (t, t) (.start m) hm).iff
    exact h.mpr (derivable_nil_iff.mpr .refl)
  assignable src dest {m'} hm' :=
    ⟨assignable_eq hm' hm src dest, (decides_test (src, dest) (.start m') hm').inv⟩
  callee t method {m'} hm' :=
    ⟨callee_eq hm' hm t method, hm'.of_extends (extends_callee t method m')⟩

/-- After a program has been checked, the nodes that have a type are those that are evaluated, every
call has the type that its receiver and its method give it, and the faults are, up to order, what is
wrong at the evaluated nodes in view of the types in the table. Neither what the oracle was asked
before nor when its answers are looked up makes a difference. -/
theorem check_explained (w : World) (history later : List Query) (host : Ty) (n : Node)
    (distinct : (n.preorder.map Node.id).Nodup) :
    let c := w.oracle.check host n (w.inquiry history).memo
    let k := w.oracle.answers (w.inquiry later).memo
    (∀ x ∈ n.preorder, (∃ t, c.typeOf? x = some t) ↔ x ∈ n.walked) ∧
      (∀ site receiver method args, Node.call site receiver method args ∈ n.walked →
        c.typeOf? (.call site receiver method args) =
          some (k.callType host c.typeOf receiver method)) ∧
      c.faults.Perm (n.walked.flatMap (k.faultsAt host c.typeOf)) := by
  intro c k
  have hsub := n.walked_sublist_preorder
  have whole : Accounts k host Memo.Idle n.walked (k.faultsOf host n.walked) _ c :=
    (Oracle.covers (steady_oracle (idle_inquiry later)) n (.start (w.inquiry history).memo)
      (idle_inquiry history) (distinct.sublist (hsub.map Node.id))).accounts
  have agrees : c.Agrees n.walked c.typeOf := by
    intro x hx
    obtain ⟨t, ht⟩ := whole.typed x hx
    rw [Checking.typeOf, ht, Option.getD_some]
  refine ⟨fun x hx => ⟨?_, whole.typed x⟩, ?_, whole.faults c.typeOf agrees⟩
  · rintro ⟨t, ht⟩
    by_contra hnot
    have hid : x.id ∉ n.walked.map Node.id := by
      intro hid
      obtain ⟨y, hy, heq⟩ := List.mem_map.mp hid
      obtain rfl := List.inj_on_of_nodup_map distinct (hsub.subset hy) hx heq
      exact hnot hy
    rw [whole.typeOf?_eq hid] at ht
    cases ht
  · intro site receiver method args hmem
    rw [agrees _ hmem]
    exact congrArg some (whole.calls c.typeOf agrees _ hmem)

/-- The instances of a class whose one method returns such an instance. -/
def greeter : Ty := .named ⟨.instances, ⟨["Greeter"], true⟩⟩ []

/-- The class of greeters and what it stands on. -/
def greeters : World where
  decls := (Declarations.empty.addAll
    [.constant ⟨⟨["BasicObject"], true⟩, [], [], .nowhere, .cls none⟩,
     .constant ⟨⟨["Object"], true⟩, [], [], .nowhere, .cls (some ⟨⟨["BasicObject"], true⟩, []⟩)⟩,
     .constant ⟨⟨["Greeter"], true⟩, [],
      [.method ⟨"greet", .instances, [⟨[], [], none, greeter, .nowhere⟩], []⟩], .nowhere, .cls none⟩]).1
  roots := .standard

/-- A call of the method on the surrounding object. -/
def greeting : Node := .call ⟨0, .nowhere⟩ none "greet" []

/-- A call of another method on the result is told as a fault, with the type that the table has for
the result. -/
theorem check_explained_greeting :
    let program : Node := .call ⟨1, .nowhere⟩ (some greeting) "shout" []
    let c := greeters.oracle.check greeter program (greeters.inquiry []).memo
    c.typeOf? greeting = some greeter ∧ ⟨⟨1, .nowhere⟩, .noMethod greeter "shout"⟩ ∈ c.faults := by
  intro program c
  obtain ⟨-, hcalls, hfaults⟩ := check_explained greeters [] [] greeter program (by decide)
  have htype : c.typeOf? greeting = some greeter := by
    rw [greeting, hcalls _ _ _ _ (by simp [program, greeting, Node.walked])]
    decide +kernel
  refine ⟨htype, hfaults.mem_iff.mpr (List.mem_flatMap.mpr ⟨program, program.self_mem_walked, ?_⟩)⟩
  have hreceiver : Answers.receiverType greeter c.typeOf (some greeting) = greeter := by
    change c.typeOf greeting = greeter
    rw [Checking.typeOf, htype, Option.getD_some]
  have hcallee : (greeters.oracle.answers (greeters.inquiry []).memo).callee greeter "shout" = none := by
    decide +kernel
  rw [Answers.faultsAt_call, Answers.calleeOf, hreceiver, hcallee]
  exact List.mem_append_left _ (List.mem_singleton_self _)

end World

end MixinTypes
