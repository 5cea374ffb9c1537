import Mathlib.Data.List.Flatten
import Mathlib.Data.List.Perm.Basic
import MixinTypes.Check.Explanation

/-!
# Accounting for nodes

`Accounts` relates what the checker knows before and after some nodes have been evaluated: types are
noted for these nodes and no others, calls have the types they must have, and the new faults are those
that are owed. Pieces of work one after another compose (`Accounts.append`) as long as their nodes have
different numbers, which is why a type that has been noted is never overwritten.

The steps of the checker are put in these terms for an oracle with steady answers (`Oracle.Steady`).
-/

namespace MixinTypes

variable {σ : Type}

/-- In a good state the oracle answers as `k` does, and its state stays good. -/
structure Oracle.Steady (o : Oracle σ) (good : σ → Prop) (k : Answers) : Prop where
  accepts_self : ∀ t, k.accepts t t = true
  assignable : ∀ src dest {s}, good s →
    (o.assignable src dest s).1 = k.accepts src dest ∧ good (o.assignable src dest s).2
  callee : ∀ t method {s}, good s →
    (o.callee t method s).1 = k.callee t method ∧ good (o.callee t method s).2

namespace Checking

/-! ## Noting types -/

theorem typeOf?_record (c : Checking σ) (n : Node) (t : Ty) :
    (c.record n.site t).2.typeOf? n = some t := by
  change (c.types.insert n.id t).get? n.id = some t
  rw [Table.get?_insert, if_pos rfl]

theorem get?_record_of_ne (c : Checking σ) {n : Node} (t : Ty) {i : Nat} (hi : i ≠ n.id) :
    (c.record n.site t).2.types.get? i = c.types.get? i := by
  change (c.types.insert n.id t).get? i = _
  rw [Table.get?_insert, if_neg hi.symm]

/-! ## Reporting faults -/

/-- The types noted for some nodes are those that `τ` gives. -/
def Agrees (c : Checking σ) (nodes : List Node) (τ : Node → Ty) : Prop :=
  ∀ x ∈ nodes, c.typeOf? x = some (τ x)

theorem Agrees.typeOf {c : Checking σ} {nodes : List Node} {τ : Node → Ty} (h : c.Agrees nodes τ)
    {x : Node} (hx : x ∈ nodes) : c.typeOf x = τ x := by
  rw [Checking.typeOf, h x hx, Option.getD_some]

theorem Agrees.of_types_eq {c c' : Checking σ} {nodes : List Node} {τ : Node → Ty}
    (h : c'.Agrees nodes τ) (ht : c'.types = c.types) : c.Agrees nodes τ := by
  intro x hx
  rw [← h x hx, typeOf?, typeOf?, ht]

/-- From `c` to `c'` faults have been reported and no types noted. -/
structure Reports (good : σ → Prop) (fs : List Fault) (c c' : Checking σ) : Prop where
  good : good c'.oracle
  types : c'.types = c.types
  faults : c'.faults = c.faults ++ fs

namespace Reports

variable {good : σ → Prop} {fs gs : List Fault} {c c' c'' : Checking σ}

theorem nil (h : good c.oracle) : Reports good [] c c := ⟨h, rfl, (List.append_nil _).symm⟩

theorem trans (h : Reports good fs c c') (h' : Reports good gs c' c'') :
    Reports good (fs ++ gs) c c'' where
  good := h'.good
  types := h'.types.trans h.types
  faults := by rw [h'.faults, h.faults, List.append_assoc]

theorem typeOf_eq (h : Reports good fs c c') : c'.typeOf = c.typeOf := by
  funext x
  rw [typeOf, typeOf, typeOf?, typeOf?, h.types]

end Reports

section Steps

variable {o : Oracle σ} {good : σ → Prop} {k : Answers} {c : Checking σ} (ho : o.Steady good k)
  (hc : good c.oracle)

include ho hc

theorem reports_expect (src dest : Ty) (fault : Fault) :
    Reports good (if k.accepts src dest then [] else [fault]) c (c.expect o src dest fault) := by
  obtain ⟨hans, hgood⟩ := ho.assignable src dest hc
  refine ⟨hgood, rfl, ?_⟩
  unfold expect
  rw [← hans]
  dsimp only
  split
  · rw [List.append_nil]
  · rfl

/-- A variable without a type takes that of the value, which is accepted. -/
theorem reports_assign (site : Site) (name : String) (t : Ty) :
    Reports good (if k.accepts t (c.assign o site name t).1 then []
      else [⟨site, .incompatibleAssignment (c.assign o site name t).1 t⟩]) c
      (c.assign o site name t).2 := by
  unfold assign
  split
  · rw [if_pos (ho.accepts_self t)]
    exact ⟨hc, rfl, (List.append_nil _).symm⟩
  · exact reports_expect ho hc t _ _

theorem reports_checkPairs (pairs : List (Ty × Node)) :
    Reports good (k.pairFaults c.typeOf pairs) c (c.checkPairs o pairs) := by
  induction pairs generalizing c with
  | nil => exact .nil hc
  | cons p pairs ih =>
    have first := reports_expect ho hc (c.typeOf p.2) p.1 ⟨p.2.site, .invalidArgument p.1 (c.typeOf p.2)⟩
    have rest := ih first.good
    rw [first.typeOf_eq] at rest
    have both := first.trans rest
    unfold Answers.pairFaults at both ⊢
    by_cases hk : k.accepts (c.typeOf p.2) p.1 = true
    · rw [List.filter_cons_of_neg (by simp [hk])]
      rw [if_pos hk, List.nil_append] at both
      exact both
    · rw [List.filter_cons_of_pos (by simp [hk]), List.map_cons]
      rw [if_neg hk, List.singleton_append] at both
      exact both

theorem reports_openCall (site : Site) (receiver : Ty) (method : String) (args : List Node) :
    (c.openCall o site receiver method args).1 = k.callee receiver method ∧
      Reports good (callFaults (k.callee receiver method) receiver method site args) c
        (c.openCall o site receiver method args).2 := by
  obtain ⟨hans, hgood⟩ := ho.callee receiver method hc
  rw [← hans]
  exact ⟨rfl, hgood, rfl, rfl⟩

theorem reports_closeCall (callee : Option Overload) (args : List Node) :
    (c.closeCall o callee args).1 = (callee.map Overload.returns).getD .any ∧
      Reports good (callee.elim [] fun v => k.pairFaults c.typeOf (v.formals.pairs args)) c
        (c.closeCall o callee args).2 := by
  cases callee with
  | none => exact ⟨rfl, .nil hc⟩
  | some v => exact ⟨rfl, reports_checkPairs ho hc _⟩

end Steps

end Checking

/-! ## Accounts -/

/-- Given the types of all nodes, a call has the type that it must have. -/
def Answers.TypesCall (k : Answers) (host : Ty) (τ : Node → Ty) : Node → Prop
  | .call site receiver method args =>
    τ (.call site receiver method args) = k.callType host τ receiver method
  | _ => True

/-- From `c` to `c'` the nodes have been evaluated, and the faults that are `owed`, given the types of
the nodes, have been reported. -/
structure Accounts (k : Answers) (host : Ty) (good : σ → Prop) (nodes : List Node)
    (owed : (Node → Ty) → List Fault) (c c' : Checking σ) : Prop where
  good : good c'.oracle
  kept : ∀ i ∉ nodes.map Node.id, c'.types.get? i = c.types.get? i
  typed : ∀ x ∈ nodes, ∃ t, c'.typeOf? x = some t
  calls : ∀ τ, c'.Agrees nodes τ → ∀ x ∈ nodes, k.TypesCall host τ x
  faults : ∀ τ, c'.Agrees nodes τ → c'.faults.Perm (c.faults ++ owed τ)

namespace Accounts

variable {k : Answers} {host : Ty} {good : σ → Prop} {xs ys : List Node}
  {f g : (Node → Ty) → List Fault} {c c' c'' : Checking σ}

/-- Nothing has happened. -/
theorem nil (h : good c.oracle) : Accounts k host good [] (fun _ => []) c c where
  good := h
  kept _ _ := rfl
  typed _ hx := nomatch hx
  calls _ _ _ hx := nomatch hx
  faults _ _ := by rw [List.append_nil]

/-- What is noted for other nodes stays. -/
theorem typeOf?_eq (h : Accounts k host good xs f c c') {x : Node} (hx : x.id ∉ xs.map Node.id) :
    c'.typeOf? x = c.typeOf? x :=
  h.kept x.id hx

theorem agrees_of_append (h : Accounts k host good ys g c' c'') {τ : Node → Ty}
    (hd : (xs.map Node.id).Disjoint (ys.map Node.id)) (hτ : c''.Agrees (xs ++ ys) τ) :
    c'.Agrees xs τ := by
  intro x hx
  rw [← h.typeOf?_eq (hd (List.mem_map_of_mem hx))]
  exact hτ x (List.mem_append_left ys hx)

/-- One piece of work after another, on nodes with different numbers. -/
theorem append (h : Accounts k host good xs f c c') (h' : Accounts k host good ys g c' c'')
    (hd : (xs.map Node.id).Disjoint (ys.map Node.id)) :
    Accounts k host good (xs ++ ys) (fun τ => f τ ++ g τ) c c'' where
  good := h'.good
  kept i hi := by
    rw [List.map_append, List.mem_append, not_or] at hi
    rw [h'.kept i hi.2, h.kept i hi.1]
  typed x hx := by
    rcases List.mem_append.mp hx with hx | hx
    · obtain ⟨t, ht⟩ := h.typed x hx
      exact ⟨t, by rw [h'.typeOf?_eq (hd (List.mem_map_of_mem hx)), ht]⟩
    · exact h'.typed x hx
  calls τ hτ x hx := by
    rcases List.mem_append.mp hx with hx | hx
    · exact h.calls τ (h'.agrees_of_append hd hτ) x hx
    · exact h'.calls τ (fun y hy => hτ y (List.mem_append_right xs hy)) x hx
  faults τ hτ := by
    have hx := h.faults τ (h'.agrees_of_append hd hτ)
    have hy := h'.faults τ fun y hy => hτ y (List.mem_append_right xs hy)
    rw [← List.append_assoc]
    exact hy.trans (hx.append_right (g τ))

/-- Faults have been reported after that. -/
theorem report {fs : List Fault} (h : Accounts k host good xs f c c')
    (hr : Checking.Reports good fs c' c'') (hfs : ∀ τ, c'.Agrees xs τ → fs = g τ) :
    Accounts k host good xs (fun τ => f τ ++ g τ) c c'' where
  good := hr.good
  kept i hi := by rw [hr.types, h.kept i hi]
  typed x hx := by
    obtain ⟨t, ht⟩ := h.typed x hx
    exact ⟨t, by rw [← ht, Checking.typeOf?, Checking.typeOf?, hr.types]⟩
  calls τ hτ := h.calls τ (hτ.of_types_eq hr.types)
  faults τ hτ := by
    have hτ' := hτ.of_types_eq hr.types
    rw [hr.faults, hfs τ hτ', ← List.append_assoc]
    exact (h.faults τ hτ').append_right (g τ)

/-- The type of a node has been noted after that, and what was owed before is owed in another way. -/
theorem record (h : Accounts k host good xs f c c') {n : Node} {t : Ty} (hn : n.id ∉ xs.map Node.id)
    (hcall : ∀ τ, c'.Agrees xs τ → τ n = t → k.TypesCall host τ n)
    (howed : ∀ τ, c'.Agrees xs τ → τ n = t → (f τ).Perm (g τ)) :
    Accounts k host good (n :: xs) g c (c'.record n.site t).2 := by
  have here := c'.typeOf?_record n t
  have other : ∀ i, i ≠ n.id → (c'.record n.site t).2.types.get? i = c'.types.get? i :=
    fun i hi => c'.get?_record_of_ne t hi
  have before : ∀ τ, (c'.record n.site t).2.Agrees (n :: xs) τ → c'.Agrees xs τ ∧ τ n = t := by
    intro τ hτ
    constructor
    · intro x hx
      have hne : x.id ≠ n.id := fun e => hn (e ▸ List.mem_map_of_mem hx)
      rw [← hτ x (List.mem_cons_of_mem n hx)]
      exact (other x.id hne).symm
    · exact Option.some.inj ((hτ n (List.mem_cons_self ..)).symm.trans here)
  refine ⟨h.good, fun i hi => ?_, fun x hx => ?_, fun τ hτ x hx => ?_, fun τ hτ => ?_⟩
  · rw [List.map_cons, List.mem_cons, not_or] at hi
    rw [other i hi.1, h.kept i hi.2]
  · rcases List.mem_cons.mp hx with rfl | hx
    · exact ⟨t, here⟩
    · have hne : x.id ≠ n.id := fun e => hn (e ▸ List.mem_map_of_mem hx)
      obtain ⟨u, hu⟩ := h.typed x hx
      exact ⟨u, (other x.id hne).trans hu⟩
  · obtain ⟨hτ', ht⟩ := before τ hτ
    rcases List.mem_cons.mp hx with rfl | hx
    · exact hcall τ hτ' ht
    · exact h.calls τ hτ' x hx
  · obtain ⟨hτ', ht⟩ := before τ hτ
    exact (h.faults τ hτ').trans ((howed τ hτ' ht).append_left c.faults)

end Accounts

end MixinTypes
