import MixinTypes.Check.Walk

/-!
# Invariants of checking

What every step of the checker keeps, checking a whole program keeps. `Oracle.Keeps` lists what has to be
shown of each step, for an invariant of the checker, a property of the types that come out of it, and a
property of the overloads that calls take; `Oracle.Keeps.walk` is the induction over the program.
-/

namespace MixinTypes.Oracle

variable {σ : Type}

/-- Each step of the checker keeps `I`, gives types with `P` to nodes, and gives overloads with `Q` to
calls, as long as the types that it starts from have `P`. -/
structure Keeps (o : Oracle σ) (host : Ty) (I : Checking σ → Prop) (P : Ty → Prop)
    (Q : Option Overload → Prop) : Prop where
  any : P .any
  host : P host
  read : ∀ {c}, I c → ∀ name, P ((c.locals.get? name).getD .any)
  record : ∀ {c t}, I c → P t → ∀ site, I (c.record site t).2
  assign : ∀ {c t}, I c → P t → ∀ site name,
    P (c.assign o site name t).1 ∧ I (c.assign o site name t).2
  openCall : ∀ {c t}, I c → P t → ∀ site method args,
    Q (c.openCall o site t method args).1 ∧ I (c.openCall o site t method args).2
  closeCall : ∀ {c callee}, I c → Q callee → ∀ args,
    P (c.closeCall o callee args).1 ∧ I (c.closeCall o callee args).2

namespace Keeps

variable {o : Oracle σ} {host : Ty} {I : Checking σ → Prop} {P : Ty → Prop} {Q : Option Overload → Prop}

/-- Walking the node keeps the invariant and gives it a type with the property. -/
def Walks (o : Oracle σ) (host : Ty) (I : Checking σ → Prop) (P : Ty → Prop) (n : Node) : Prop :=
  ∀ c, I c → P (o.walk host n c).1 ∧ I (o.walk host n c).2

theorem walkSeq {ns : List Node} (hns : ∀ n ∈ ns, Walks o host I P n) {last : Ty} (hlast : P last)
    {c : Checking σ} (hc : I c) : P (o.walkSeq host last ns c).1 ∧ I (o.walkSeq host last ns c).2 := by
  induction ns generalizing last c with
  | nil => exact ⟨hlast, hc⟩
  | cons n ns ih =>
    obtain ⟨hn, hns⟩ := List.forall_mem_cons.mp hns
    obtain ⟨hfirst, hc'⟩ := hn c hc
    exact ih hns hfirst hc'

variable (h : o.Keeps host I P Q)

include h

/-- A call, once its receiver has been walked. -/
theorem call {args : List Node} (hargs : ∀ n ∈ args, Walks o host I P n) (site : Site) {t : Ty} (ht : P t)
    (method : String) {c : Checking σ} (hc : I c) :
    let opened := c.openCall o site t method args
    let closed := (o.walkSeq host .any args opened.2).2.closeCall o opened.1 args
    P closed.1 ∧ I (closed.2.record site closed.1).2 := by
  intro opened closed
  obtain ⟨hcallee, hopened⟩ := h.openCall hc ht site method args
  obtain ⟨-, hwalked⟩ := walkSeq hargs h.any hopened
  obtain ⟨htype, hclosed⟩ := h.closeCall hwalked hcallee args
  exact ⟨htype, h.record hclosed htype site⟩

theorem walk (n : Node) : Walks o host I P n := by
  induction n using Node.induction with
  | step n ih =>
    intro c hc
    cases n with
    | seq site body =>
      obtain ⟨ht, hbody⟩ := walkSeq ih h.any hc
      exact ⟨ht, h.record hbody ht site⟩
    | assign site name value =>
      obtain ⟨hvalue, hwalked⟩ := ih value (List.mem_singleton_self value) c hc
      obtain ⟨ht, hassigned⟩ := h.assign hwalked hvalue site name
      exact ⟨ht, h.record hassigned ht site⟩
    | read site name => exact ⟨h.read hc name, h.record hc (h.read hc name) site⟩
    | lit site | unsupported site => exact ⟨h.any, h.record hc h.any site⟩
    | call site receiver method args =>
      have hargs : ∀ n ∈ args, Walks o host I P n := fun n hm =>
        ih n (List.mem_append_right receiver.toList hm)
      cases receiver with
      | none => exact h.call hargs site h.host method hc
      | some r =>
        obtain ⟨ht, hreceiver⟩ := ih r (List.mem_cons_self ..) c hc
        exact h.call hargs site ht method hreceiver
    | hash site elements =>
      obtain ⟨-, helements⟩ := walkSeq ih h.any hc
      exact ⟨h.any, h.record helements h.any site⟩
    | pair site key value =>
      obtain ⟨-, hvalue⟩ := ih value (List.mem_cons_of_mem key (List.mem_singleton_self value)) c hc
      exact ⟨h.any, h.record hvalue h.any site⟩

/-- Checking a program from nothing keeps the invariant. -/
theorem check (program : Node) {s : σ} (hs : I (.start s)) : I (o.check host program s) :=
  (h.walk program (.start s) hs).2

end Keeps

end MixinTypes.Oracle
