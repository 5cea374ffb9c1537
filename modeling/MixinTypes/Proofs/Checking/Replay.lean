import Mathlib.Data.List.Perm.Basic
import MixinTypes.Check.Trace

/-!
# Walking replays a trace

What the checker does to variables and nodes while it walks a program is told by a trace of all that is evaluated
for it, whatever the oracle answers, whatever faults are found and whatever numbers the nodes have.

1. Pieces of work one after another replay one trace after another (`Replays.append`). The steps that only ask,
   compare and report finish nothing (`replays_openCall`, `replays_closeCall`), and an assignment gives its type to
   a variable that has none (`locals_assign`).
2. By induction over the program, walking a node replays a trace in which the node comes last (`replays_walk`).
-/

namespace MixinTypes

variable {σ : Type}

theorem Node.finished_perm_walked (n : Node) : n.finished.Perm n.walked := by
  induction n using Node.induction with
  | step n ih =>
    rw [finished_eq, walked_eq]
    have hevaluated := List.Perm.flatMap_left n.evaluated fun c hc => ih c (n.evaluated_sublist_children.mem hc)
    exact (List.perm_append_singleton n _).trans (hevaluated.cons n)

namespace Checking

variable {c c' c'' : Checking σ} {trace xs ys before after : List (Node × Ty)} {t : Ty}

/-- Every number in a trace has a type after it, and none has lost its own. -/
theorem mem_keys_typesAfter (types : Table Nat Ty) (trace : List (Node × Ty)) {i : Nat} :
    i ∈ (typesAfter types trace).keys ↔ i ∈ (trace.map Prod.fst).map Node.id ∨ i ∈ types.keys := by
  induction trace generalizing types with
  | nil => exact (or_iff_right List.not_mem_nil).symm
  | cons e trace ih =>
    have hrest := ih (types.insert e.1.id e.2)
    rw [Table.mem_keys_insert, or_left_comm, ← or_assoc] at hrest
    rw [List.map_cons, List.map_cons, List.mem_cons]
    exact hrest

/-! ## Replaying -/

theorem Fits.append {locals : Table String Ty} {e : Node × Ty} (h : Fits (localsAfter locals xs) ys e) :
    Fits locals (xs ++ ys) e := by
  obtain ⟨n, t⟩ := e
  cases n with
  | read site name => rwa [Fits, localsAfter_append]
  | assign site name value =>
    rw [Fits, localsAfter_append]
    rw [Fits] at h
    split at h
    · exact h
    · rw [List.getLast?_append, h]
      rfl
  | _ => trivial

/-- A place in a list is in its first or in its second part. -/
theorem split_append {e : Node × Ty} (h : xs ++ ys = before ++ e :: after) :
    (∃ between, xs = before ++ e :: between) ∨ ∃ between, before = xs ++ between ∧ ys = between ++ e :: after := by
  rcases List.append_eq_append_iff.mp h with ⟨between, hbefore, hys⟩ | ⟨between, hxs, hafter⟩
  · exact .inr ⟨between, hbefore, hys⟩
  · cases between with
    | nil => exact .inr ⟨[], by rw [hxs, List.append_nil, List.append_nil], hafter.symm⟩
    | cons first between =>
      obtain ⟨rfl, -⟩ := List.cons.inj hafter
      exact .inl ⟨between, hxs⟩

namespace Replays

/-- Nothing has been finished. -/
theorem nil (hlocals : c'.locals = c.locals) (htypes : c'.types = c.types) (hfaults : c.faults <+: c'.faults) :
    Replays [] c c' where
  locals := hlocals
  types := htypes
  faults := hfaults
  fits before e after h := by simp at h

/-- One piece of work after another. -/
theorem append (h : Replays xs c c') (h' : Replays ys c' c'') : Replays (xs ++ ys) c c'' where
  locals := by rw [h'.locals, h.locals, localsAfter_append]
  types := by rw [h'.types, h.types, typesAfter_append]
  faults := h.faults.trans h'.faults
  fits before e after heq := by
    rcases split_append heq with ⟨between, hxs⟩ | ⟨between, rfl, hys⟩
    · exact h.fits before e between hxs
    · have hfits := h'.fits between e after hys
      rw [h.locals] at hfits
      exact hfits.append

/-- A node has been finished after that, and the variables are those that it leaves. -/
theorem finish (h : Replays trace c c') {n : Node} (hlocals : c''.locals = bindFirst c'.locals (n, t))
    (htypes : c''.types = c'.types) (hfaults : c'.faults <+: c''.faults) (hfits : Fits c.locals trace (n, t)) :
    Replays (trace ++ [(n, t)]) c (c''.record n.site t).2 where
  locals := by
    rw [localsAfter_append, ← h.locals]
    exact hlocals
  types := by
    rw [typesAfter_append, ← h.types, ← htypes]
    rfl
  faults := h.faults.trans hfaults
  fits before e after heq := by
    rcases split_append heq with ⟨between, htrace⟩ | ⟨between, rfl, hlast⟩
    · exact h.fits before e between htrace
    · cases between with
      | nil =>
        obtain ⟨rfl, -⟩ := List.cons.inj hlast
        rwa [List.append_nil]
      | cons first between => simp at hlast

/-- A node that assigns nothing has been finished after that, and no more has happened. -/
theorem record (h : Replays trace c c') {n : Node} (hn : n.assigned? = none) (hfits : Fits c.locals trace (n, t)) :
    Replays (trace ++ [(n, t)]) c (c'.record n.site t).2 :=
  h.finish (by rw [bindFirst, hn]) rfl (List.prefix_refl _) hfits

end Replays

/-! ## Steps -/

section Steps

variable (o : Oracle σ) (c : Checking σ)

theorem isPrefix_faults_expect (src dest : Ty) (fault : Fault) :
    c.faults <+: (c.expect o src dest fault).faults := by
  unfold expect
  dsimp only
  split
  · exact List.prefix_refl _
  · exact List.prefix_append ..

theorem replays_expect (src dest : Ty) (fault : Fault) : Replays [] c (c.expect o src dest fault) :=
  .nil rfl rfl (isPrefix_faults_expect o c src dest fault)

theorem replays_checkPairs (pairs : List (Ty × Node)) : Replays [] c (c.checkPairs o pairs) := by
  induction pairs generalizing c with
  | nil => exact .nil rfl rfl (List.prefix_refl _)
  | cons p pairs ih =>
    let actual := (c.typeOf? p.2).getD .any
    exact (replays_expect o c actual p.1 ⟨p.2.site, .invalidArgument p.1 actual⟩).append (ih _)

theorem replays_openCall (site : Site) (receiver : Ty) (method : String) (args : List Node) :
    Replays [] c (c.openCall o site receiver method args).2 :=
  .nil rfl rfl (List.prefix_append ..)

theorem replays_closeCall (callee : Option Overload) (args : List Node) :
    Replays [] c (c.closeCall o callee args).2 := by
  cases callee with
  | none => exact .nil rfl rfl (List.prefix_refl _)
  | some overload => exact replays_checkPairs o c _

theorem types_assign (site : Site) (name : String) (t : Ty) : (c.assign o site name t).2.types = c.types := by
  unfold assign
  split <;> rfl

theorem isPrefix_faults_assign (site : Site) (name : String) (t : Ty) :
    c.faults <+: (c.assign o site name t).2.faults := by
  unfold assign
  split
  · exact List.prefix_refl _
  · exact isPrefix_faults_expect o c _ _ _

theorem locals_assign (site : Site) (name : String) (value : Node) (t : Ty) :
    (c.assign o site name t).2.locals =
      bindFirst c.locals (.assign site name value, (c.assign o site name t).1) := by
  unfold assign
  cases hget : c.locals.get? name with
  | none => simp [bindFirst, Node.assigned?, Table.contains, hget]
  | some known => simp [bindFirst, Node.assigned?, Table.contains, hget, expect]

/-- The type of an assignment whose value has just been finished. -/
theorem fits_assign {c₀ : Checking σ} {value : Node} (h : Replays (trace ++ [(value, t)]) c₀ c) (site : Site)
    (name : String) :
    Fits c₀.locals (trace ++ [(value, t)]) (.assign site name value, (c.assign o site name t).1) := by
  rw [Fits, ← h.locals, assign]
  cases c.locals.get? name with
  | none => exact List.getLast?_concat
  | some known => rfl

end Steps

end Checking

namespace Oracle

open Checking

variable {o : Oracle σ} {host : Ty}

/-! ## Walking -/

/-- Whatever was found out before, walking the node replays a trace of what is evaluated for it, and the node is
finished last, with the type that comes out. -/
def ReplaysWalked (o : Oracle σ) (host : Ty) (n : Node) : Prop :=
  ∀ c : Checking σ, ∃ trace : List (Node × Ty),
    trace.map Prod.fst = n.evaluated.flatMap Node.finished ∧
      Replays (trace ++ [(n, (o.walk host n c).1)]) c (o.walk host n c).2

theorem ReplaysWalked.exists_trace {n : Node} (h : o.ReplaysWalked host n) (c : Checking σ) :
    ∃ trace, trace.map Prod.fst = n.finished ∧ Replays trace c (o.walk host n c).2 := by
  obtain ⟨trace, hnodes, hreplays⟩ := h c
  refine ⟨_, ?_, hreplays⟩
  rw [List.map_append, hnodes, Node.finished_eq]
  rfl

theorem exists_replays_walkSeq {ns : List Node} (hns : ∀ n ∈ ns, o.ReplaysWalked host n) (last : Ty)
    (c : Checking σ) :
    ∃ trace, trace.map Prod.fst = ns.flatMap Node.finished ∧ Replays trace c (o.walkSeq host last ns c).2 := by
  induction ns generalizing last c with
  | nil => exact ⟨[], rfl, .nil rfl rfl (List.prefix_refl _)⟩
  | cons n ns ih =>
    obtain ⟨hn, hns⟩ := List.forall_mem_cons.mp hns
    obtain ⟨xs, hxs, hfirst⟩ := hn.exists_trace c
    obtain ⟨ys, hys, hrest⟩ := ih hns (o.walk host n c).1 (o.walk host n c).2
    refine ⟨xs ++ ys, ?_, hfirst.append hrest⟩
    rw [List.map_append, hxs, hys, List.flatMap_cons]

/-- A call, once its receiver has been walked. -/
theorem exists_replays_call {site : Site} {receiver : Option Node} {method : String} {args : List Node}
    (hargs : ∀ n ∈ args, o.ReplaysWalked host n) (t : Ty) {c c' : Checking σ} {xs : List (Node × Ty)}
    (hxs : xs.map Prod.fst = receiver.toList.flatMap Node.finished) (hr : Replays xs c c') :
    let opened := c'.openCall o site t method args
    let closed := (o.walkSeq host .any args opened.2).2.closeCall o opened.1 args
    ∃ trace : List (Node × Ty),
      trace.map Prod.fst = (Node.call site receiver method args).evaluated.flatMap Node.finished ∧
        Replays (trace ++ [(.call site receiver method args, closed.1)]) c (closed.2.record site closed.1).2 := by
  intro opened closed
  obtain ⟨ys, hys, hwalked⟩ := exists_replays_walkSeq hargs .any opened.2
  have whole := ((hr.append (replays_openCall o c' site t method args)).append hwalked).append
    (replays_closeCall o _ opened.1 args)
  rw [List.append_nil, List.append_nil] at whole
  refine ⟨xs ++ ys, ?_, whole.record rfl trivial⟩
  rw [List.map_append, hxs, hys, ← List.flatMap_append]
  rfl

/-- An assignment, once its value has been walked. -/
theorem exists_replays_assign {site : Site} {name : String} {value : Node} (hvalue : o.ReplaysWalked host value)
    (c : Checking σ) :
    let walked := o.walk host value c
    let assigned := walked.2.assign o site name walked.1
    ∃ trace : List (Node × Ty),
      trace.map Prod.fst = (Node.assign site name value).evaluated.flatMap Node.finished ∧
        Replays (trace ++ [(.assign site name value, assigned.1)]) c (assigned.2.record site assigned.1).2 := by
  intro walked assigned
  obtain ⟨trace, hnodes, hreplays⟩ := hvalue c
  refine ⟨_, ?_, hreplays.finish (locals_assign o walked.2 site name value walked.1)
    (types_assign o walked.2 site name walked.1) (isPrefix_faults_assign o walked.2 site name walked.1)
    (fits_assign o walked.2 hreplays site name)⟩
  rw [List.map_append, hnodes]
  change _ = [value].flatMap Node.finished
  rw [List.flatMap_singleton, Node.finished_eq]
  rfl

theorem replays_walk (o : Oracle σ) (host : Ty) (n : Node) : o.ReplaysWalked host n := by
  induction n using Node.induction with
  | step n ih =>
    intro c
    have nothing : Replays [] c c := .nil rfl rfl (List.prefix_refl _)
    cases n with
    | seq site body =>
      obtain ⟨trace, hnodes, hbody⟩ := exists_replays_walkSeq ih .any c
      exact ⟨trace, hnodes, hbody.record rfl trivial⟩
    | assign site name value => exact exists_replays_assign (ih value (List.mem_singleton_self value)) c
    | read site name => exact ⟨[], rfl, nothing.record rfl rfl⟩
    | lit site value => exact ⟨[], rfl, nothing.record rfl trivial⟩
    | call site receiver method args =>
      have hargs : ∀ n ∈ args, o.ReplaysWalked host n := fun n hm =>
        ih n (List.mem_append_right receiver.toList hm)
      cases receiver with
      | none => exact exists_replays_call hargs host rfl nothing
      | some r =>
        obtain ⟨xs, hxs, hreceiver⟩ := (ih r (List.mem_cons_self ..)).exists_trace c
        exact exists_replays_call hargs _ (by simpa using hxs) hreceiver
    | hash site elements =>
      obtain ⟨trace, hnodes, helements⟩ := exists_replays_walkSeq ih .any c
      exact ⟨trace, hnodes, helements.record rfl trivial⟩
    | pair site key value =>
      have hmem : value ∈ (Node.pair site key value).children :=
        List.mem_cons_of_mem key (List.mem_singleton_self value)
      obtain ⟨trace, hnodes, hvalue⟩ := (ih value hmem).exists_trace c
      refine ⟨trace, ?_, hvalue.record rfl trivial⟩
      exact hnodes.trans (List.flatMap_singleton ..).symm
    | unsupported site kind children =>
      exact ⟨[], rfl, nothing.record rfl trivial⟩

end Oracle

end MixinTypes
