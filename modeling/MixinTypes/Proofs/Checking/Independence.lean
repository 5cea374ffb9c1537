import MixinTypes.Check.Session
import MixinTypes.Proofs.Assignability.Decision

/-!
# Requests do not influence one another

Every request of a session is answered as it would be in a session of its own, so the order of the requests
does not matter either.

1. Two oracles that answer alike make the checker find out the same, node by node (`alike_walk`).
2. When no question is in progress and nothing is being linked, an inquiry is ready, and all ready inquiries
   answer alike (`matches_inquirer`). The oracle that begins every question anew is as good as one of them
   (`alike_check_oracle`).
3. Serving a request leaves the inquiry ready (`ready_serve`), and so replies do not depend on what was served
   before (`replies_eq_map`).
-/

namespace MixinTypes

variable {σ τ α : Type} {R : σ → τ → Prop}

/-! ## Two runs of the checker -/

/-- From related states the oracles answer alike and go on in related states. -/
structure Oracle.Matches (o : Oracle σ) (o' : Oracle τ) (R : σ → τ → Prop) : Prop where
  assignable : ∀ src dest {s t}, R s t →
    (o.assignable src dest s).1 = (o'.assignable src dest t).1 ∧
      R (o.assignable src dest s).2 (o'.assignable src dest t).2
  callee : ∀ receiver method {s t}, R s t →
    (o.callee receiver method s).1 = (o'.callee receiver method t).1 ∧
      R (o.callee receiver method s).2 (o'.callee receiver method t).2

namespace Checking

/-- Two runs have found out the same. -/
structure Alike (R : σ → τ → Prop) (c : Checking σ) (c' : Checking τ) : Prop where
  oracle : R c.oracle c'.oracle
  locals : c.locals = c'.locals
  types : c.types = c'.types
  faults : c.faults = c'.faults

/-- Two pieces of work give the same and have found out the same afterwards. -/
structure SameResult (R : σ → τ → Prop) (r : α × Checking σ) (r' : α × Checking τ) : Prop where
  value : r.1 = r'.1
  alike : Alike R r.2 r'.2

variable {c : Checking σ} {c' : Checking τ}

theorem Alike.start {s : σ} {t : τ} (h : R s t) : Alike R (start s) (start t) := ⟨h, rfl, rfl, rfl⟩

theorem Alike.record (h : Alike R c c') (site : Site) (t : Ty) :
    SameResult R (c.record site t) (c'.record site t) :=
  ⟨rfl, h.oracle, h.locals, congrArg (Table.insert · site.id t) h.types, h.faults⟩

theorem SameResult.record {r : Ty × Checking σ} {r' : Ty × Checking τ} (h : SameResult R r r')
    (site : Site) : SameResult R (r.2.record site r.1) (r'.2.record site r'.1) := by
  rw [h.value]
  exact h.alike.record site r'.1

section Steps

variable {o : Oracle σ} {o' : Oracle τ} (ho : o.Matches o' R) (h : Alike R c c')

include ho h

theorem alike_expect (src dest : Ty) (fault : Fault) :
    Alike R (c.expect o src dest fault) (c'.expect o' src dest fault) := by
  obtain ⟨hans, hR⟩ := ho.assignable src dest h.oracle
  refine ⟨hR, h.locals, h.types, ?_⟩
  unfold expect
  simp only [hans, h.faults]

theorem alike_assign (site : Site) (name : String) (t : Ty) :
    SameResult R (c.assign o site name t) (c'.assign o' site name t) := by
  have hlocals : c.locals.insert name t = c'.locals.insert name t := by rw [h.locals]
  unfold assign
  rw [show c'.locals.get? name = c.locals.get? name by rw [h.locals]]
  cases c.locals.get? name with
  | none => exact ⟨rfl, h.oracle, hlocals, h.types, h.faults⟩
  | some target => exact ⟨rfl, alike_expect ho h ..⟩

theorem alike_checkPairs (pairs : List (Ty × Node)) :
    Alike R (c.checkPairs o pairs) (c'.checkPairs o' pairs) := by
  induction pairs generalizing c c' with
  | nil => exact h
  | cons p pairs ih =>
    have htype : c.typeOf? p.2 = c'.typeOf? p.2 := congrArg (Table.get? · p.2.id) h.types
    have hfirst := alike_expect ho h ((c.typeOf? p.2).getD .any) p.1
      ⟨p.2.site, .invalidArgument p.1 ((c.typeOf? p.2).getD .any)⟩
    unfold checkPairs at ih ⊢
    rw [List.foldl_cons, List.foldl_cons, ← htype]
    exact ih hfirst

theorem alike_openCall (site : Site) (receiver : Ty) (method : String) (args : List Node) :
    SameResult R (c.openCall o site receiver method args) (c'.openCall o' site receiver method args) := by
  obtain ⟨hans, hR⟩ := ho.callee receiver method h.oracle
  unfold openCall
  dsimp only
  rw [hans]
  exact ⟨rfl, hR, h.locals, h.types, congrArg (· ++ callFaults _ receiver method site args) h.faults⟩

theorem alike_closeCall (callee : Option Overload) (args : List Node) :
    SameResult R (c.closeCall o callee args) (c'.closeCall o' callee args) := by
  cases callee with
  | none => exact ⟨rfl, h⟩
  | some overload => exact ⟨rfl, alike_checkPairs ho h _⟩

end Steps

end Checking

namespace Oracle

open Checking

variable {o : Oracle σ} {o' : Oracle τ} {host : Ty}

/-- Whatever was found out before, the two runs over the node go alike. -/
def WalksAlike (o : Oracle σ) (o' : Oracle τ) (R : σ → τ → Prop) (host : Ty) (n : Node) : Prop :=
  ∀ c c', Alike R c c' → SameResult R (o.walk host n c) (o'.walk host n c')

theorem alike_walkSeq {ns : List Node} (hns : ∀ n ∈ ns, o.WalksAlike o' R host n) (last : Ty)
    {c : Checking σ} {c' : Checking τ} (h : Alike R c c') :
    SameResult R (o.walkSeq host last ns c) (o'.walkSeq host last ns c') := by
  induction ns generalizing last c c' with
  | nil => exact ⟨rfl, h⟩
  | cons n ns ih =>
    obtain ⟨hn, hns⟩ := List.forall_mem_cons.mp hns
    have hfirst := hn c c' h
    unfold walkSeq
    dsimp only
    rw [hfirst.value]
    exact ih hns _ hfirst.alike

/-- A call, once its receiver has been walked. -/
theorem alike_call (ho : o.Matches o' R) {args : List Node} (hargs : ∀ n ∈ args, o.WalksAlike o' R host n)
    (site : Site) (receiver : Ty) (method : String) {c : Checking σ} {c' : Checking τ} (h : Alike R c c') :
    let opened := c.openCall o site receiver method args
    let opened' := c'.openCall o' site receiver method args
    let closed := (o.walkSeq host .any args opened.2).2.closeCall o opened.1 args
    let closed' := (o'.walkSeq host .any args opened'.2).2.closeCall o' opened'.1 args
    SameResult R (closed.2.record site closed.1) (closed'.2.record site closed'.1) := by
  have hopened := alike_openCall ho h site receiver method args
  have hwalked := (alike_walkSeq hargs .any hopened.alike).alike
  dsimp only
  rw [← hopened.value]
  exact (alike_closeCall ho hwalked _ args).record site

theorem alike_walk (ho : o.Matches o' R) (n : Node) : o.WalksAlike o' R host n := by
  induction n using Node.induction with
  | step n ih =>
    intro c c' h
    cases n with
    | seq site body => exact (alike_walkSeq ih .any h).record site
    | assign site name value =>
      have hvalue := ih value (List.mem_singleton_self value) c c' h
      have hassign := alike_assign ho hvalue.alike site name (o.walk host value c).1
      unfold walk
      dsimp only
      rw [← hvalue.value]
      exact hassign.record site
    | read site name =>
      unfold walk
      rw [show c'.locals.get? name = c.locals.get? name by rw [h.locals]]
      exact h.record site _
    | lit | unsupported => exact h.record _ _
    | call site receiver method args =>
      have hargs : ∀ n ∈ args, o.WalksAlike o' R host n := fun n hm =>
        ih n (List.mem_append_right receiver.toList hm)
      cases receiver with
      | none => exact alike_call ho hargs site host method h
      | some r =>
        have hr := ih r (List.mem_cons_self ..) c c' h
        unfold walk
        dsimp only
        rw [← hr.value]
        exact alike_call ho hargs site _ method hr.alike
    | hash site elements => exact (alike_walkSeq ih .any h).alike.record site _
    | pair site key value =>
      exact (ih value (List.mem_cons_of_mem key (List.mem_singleton_self value)) c c' h).alike.record site _

theorem alike_check (ho : o.Matches o' R) (host : Ty) (n : Node) {s : σ} {t : τ} (h : R s t) :
    Alike R (o.check host n s) (o'.check host n t) :=
  (alike_walk ho n _ _ (.start h)).alike

end Oracle

/-! ## Ready inquiries -/

/-- No question is in progress and nothing is being linked. -/
def Inquiry.Ready {w : World} (s : Inquiry w) : Prop := s.memo.Idle ∧ s.asking = []

namespace World

variable {w : World} {s t : Inquiry w} {m : Memo w}

theorem ready_start : (Inquiry.start (Memo.empty w)).Ready := ⟨Memo.isOpen_empty, rfl⟩

theorem ready_test (hs : s.Ready) (src dest : Ty) : (w.test src dest s).2.Ready :=
  ⟨(decides_test (src, dest) s hs.1).inv, (asking_test src dest s).trans hs.2⟩

theorem ready_callee (hs : s.Ready) (receiver : Ty) (method : String) :
    (w.inquirer.callee receiver method s).2.Ready :=
  ⟨hs.1.of_extends (extends_callee receiver method s.memo), hs.2⟩

/-- Ready inquiries answer alike, and stay ready. -/
theorem matches_inquirer : w.inquirer.Matches w.inquirer fun s t => s.Ready ∧ t.Ready where
  assignable src dest {s t} h := by
    have hs : (w.test src dest s).1 = true ↔ Assignable w src dest := test_iff h.1.1 h.1.2
    have ht : (w.test src dest t).1 = true ↔ Assignable w src dest := test_iff h.2.1 h.2.2
    exact ⟨Bool.eq_iff_iff.mpr (hs.trans ht.symm), ready_test h.1 src dest, ready_test h.2 src dest⟩
  callee receiver method {s t} h :=
    ⟨callee_eq h.1.1 h.2.1 receiver method, ready_callee h.1 receiver method,
      ready_callee h.2 receiver method⟩

/-- The oracle that begins every question anew answers as an inquiry with no question in progress. -/
theorem matches_oracle : w.inquirer.Matches w.oracle fun s m => s = .start m where
  assignable src dest {s m} h := by
    subst h
    refine ⟨rfl, ?_⟩
    have hasking := asking_test src dest (.start m)
    exact congrArg (Inquiry.mk (w.test src dest (.start m)).2.memo) hasking
  callee receiver method {s m} h := by
    subst h
    exact ⟨rfl, rfl⟩

theorem alike_check_oracle (host : Ty) (n : Node) (m : Memo w) :
    Checking.Alike (fun s m => s = Inquiry.start m) (w.inquirer.check host n (.start m))
      (w.oracle.check host n m) :=
  Oracle.alike_check matches_oracle host n rfl

/-! ## Sessions -/

theorem ready_interface (hs : s.Ready) (scope : Option Path) (n : Nominal) :
    (s.learn (w.interfaceOf scope n s.memo).2).Ready :=
  ⟨hs.1.of_extends (extends_interfaceOf scope n s.memo), hs.2⟩

theorem interfaceOf_eq (hs : s.Ready) (ht : t.Ready) (scope : Option Path) (n : Nominal) :
    (w.interfaceOf scope n s.memo).1 = (w.interfaceOf scope n t.memo).1 := by
  rw [fst_interfaceOf, fst_interfaceOf]
  exact congrArg (Except.map Subtype.val) (link_eq_link hs.1 ht.1)

/-- Serving a request leaves the inquiry ready for the next one. -/
theorem ready_serve (hs : s.Ready) (r : Request) : (w.serve s r).2.Ready := by
  cases r with
  | interface scope n => exact ready_interface hs scope n
  | test src dest => exact ready_test hs src dest
  | callee receiver method => exact ready_callee hs receiver method
  | check host program => exact (Oracle.alike_check matches_inquirer host program ⟨hs, hs⟩).oracle.1

/-- Ready inquiries give the same reply. -/
theorem serve_eq (hs : s.Ready) (ht : t.Ready) (r : Request) : (w.serve s r).1 = (w.serve t r).1 := by
  cases r with
  | interface scope n => exact congrArg Reply.interface (interfaceOf_eq hs ht scope n)
  | test src dest => exact congrArg Reply.verdict (matches_inquirer.assignable src dest ⟨hs, ht⟩).1
  | callee receiver method =>
    exact congrArg Reply.callee (matches_inquirer.callee receiver method ⟨hs, ht⟩).1
  | check host program =>
    have h := Oracle.alike_check matches_inquirer host program ⟨hs, ht⟩
    exact congrArg₂ Reply.checked h.types h.faults

theorem repliesFrom_eq_map (hs : s.Ready) (requests : List Request) :
    w.repliesFrom s requests = requests.map w.replyAlone := by
  induction requests generalizing s with
  | nil => rfl
  | cons r rs ih =>
    rw [repliesFrom, List.map_cons, serve_eq hs ready_start, ih (ready_serve hs r)]
    rfl

/-- Whatever is served in a session, with failures and cycles among it, every request gets the reply that it
gets in a session of its own; so with the requests in another order each of them gets the same reply. -/
theorem replies_eq_map (w : World) (requests : List Request) :
    w.replies requests = requests.map w.replyAlone ∧
      ∀ reordered : List Request, reordered.Perm requests →
        (reordered.zip (w.replies reordered)).Perm (requests.zip (w.replies requests)) := by
  have hmap : ∀ rs, w.replies rs = rs.map w.replyAlone := repliesFrom_eq_map ready_start
  have hzip : ∀ rs : List Request, rs.zip (w.replies rs) = rs.map fun r => (r, w.replyAlone r) := by
    intro rs
    rw [hmap, ← List.zip_map', List.map_id']
  refine ⟨hmap requests, fun reordered h => ?_⟩
  rw [hzip, hzip]
  exact h.map _

/-- A class that is its own superclass, and a module whose self-type mentions the module. -/
def circling : World where
  decls := (Declarations.empty.addAll
    [.constant ⟨⟨["BasicObject"], true⟩, [], [], .nowhere, .cls none⟩,
     .constant ⟨⟨["Object"], true⟩, [], [], .nowhere, .cls (some ⟨⟨["BasicObject"], true⟩, []⟩)⟩,
     .constant ⟨⟨["Loop"], true⟩, [], [], .nowhere, .cls (some ⟨⟨["Loop"], true⟩, []⟩)⟩,
     .constant ⟨⟨["Round"], true⟩, [], [], .nowhere,
      .mod (some (.union [.ofPath ⟨["Round"], true⟩ [], .ofPath ⟨["Loop"], true⟩ []]))⟩]).1
  roots := .standard

/-- Programs, a test that comes back to itself and an interface that cannot be built may be asked for in the
reverse order. -/
theorem replies_eq_map_circling :
    let round : Ty := .ofPath ⟨["Round"], true⟩ []
    let requests : List Request :=
      [.check round (.assign ⟨1, .nowhere⟩ "x" (.call ⟨0, .nowhere⟩ none "shout" [])),
        .test round (.ofPath ⟨["Object"], true⟩ []), .interface none ⟨.instances, ⟨["Loop"], true⟩⟩,
        .check .any (.call ⟨0, .nowhere⟩ none "shout" []), .callee round "shout"]
    (circling.interfaceOf none ⟨.instances, ⟨["Loop"], true⟩⟩ (.empty circling)).1.toOption.isNone = true ∧
      circling.replies requests = requests.map circling.replyAlone ∧
      (requests.reverse.zip (circling.replies requests.reverse)).Perm
        (requests.zip (circling.replies requests)) := by
  intro round requests
  obtain ⟨hmap, hperm⟩ := replies_eq_map circling requests
  exact ⟨by decide +kernel, hmap, hperm requests.reverse (List.reverse_perm requests)⟩

end World

end MixinTypes
