import MixinTypes.Check.Visit
import MixinTypes.Proofs.Checking.Coverage
import MixinTypes.Proofs.Checking.Locals

/-!
# Arguments have types when they are compared

The arguments that fill parameters are compared with the types that have been noted for them. What has no type
counts as `any`, which would let everything pass. This never happens: every node that can fill a parameter has been
visited with the arguments of the call, keyword values included.

1. `Checking.Notes` says which nodes have been given types between two states. A node keeps its type as long as none
   with its number is among them (`Notes.typeOf?_eq`).
2. After a visit, those around it give types to the nodes that are still to be finished there, and to no others
   (`GoesOn.notes`, and `Visits.notes` at any distance). So with different numbers, what a visit returns stands to
   the end.
3. What is evaluated for a node is what the checker visits from it on (`exists_visits_iff`). This holds of what fills a
   parameter (`LooksUp.exists_notes`).
-/

namespace MixinTypes

variable {σ : Type}

open Node

namespace Checking

variable {c c' c'' : Checking σ} {xs ys : List Node} {n : Node}

/-- From `c` to `c'` these nodes have been given types, in this order. -/
def Notes (nodes : List Node) (c c' : Checking σ) : Prop :=
  ∃ trace : List (Node × Ty), trace.map Prod.fst = nodes ∧ c'.types = typesAfter c.types trace

namespace Notes

theorem of_types_eq (h : c'.types = c.types) : Notes [] c c' := ⟨[], rfl, h⟩

theorem append (h : Notes xs c c') (h' : Notes ys c' c'') : Notes (xs ++ ys) c c'' := by
  obtain ⟨trace, rfl, htypes⟩ := h
  obtain ⟨trace', rfl, htypes'⟩ := h'
  exact ⟨trace ++ trace', List.map_append, by rw [htypes', htypes, typesAfter_append]⟩

/-- A node is given its type at the end. -/
theorem record (h : Notes xs c c') (n : Node) (t : Ty) : Notes (xs ++ [n]) c (c'.record n.site t).2 :=
  h.append ⟨[(n, t)], rfl, rfl⟩

theorem exists_typeOf? (h : Notes xs c c') (hn : n ∈ xs) : ∃ t, c'.typeOf? n = some t := by
  obtain ⟨trace, rfl, htypes⟩ := h
  refine Table.mem_keys_iff.mp ?_
  rw [htypes]
  exact (mem_keys_typesAfter ..).mpr (.inl (List.mem_map_of_mem hn))

theorem typeOf?_eq (h : Notes xs c c') (hn : n.id ∉ xs.map Node.id) : c'.typeOf? n = c.typeOf? n := by
  obtain ⟨trace, rfl, htypes⟩ := h
  have hnone : Table.valueIn? n.id (trace.map fun e => (e.1.id, e.2)).reverse = none := by
    refine Table.valueIn?_eq_none_iff.mpr fun hmem => hn ?_
    simpa [List.map_reverse, Function.comp_def] using hmem
  rw [typeOf?, htypes, get?_typesAfter, hnone, Option.none_or]
  rfl

end Notes

end Checking

namespace Oracle

open Checking

variable {o : Oracle σ} {host : Ty}

/-! ## What is noted after a visit -/

theorem walkSeq_append (last : Ty) (xs ys : List Node) (c : Checking σ) :
    o.walkSeq host last (xs ++ ys) c =
      o.walkSeq host (o.walkSeq host last xs c).1 ys (o.walkSeq host last xs c).2 := by
  induction xs generalizing last c with
  | nil => rfl
  | cons n xs ih => exact ih _ _

theorem notes_walkSeq (last : Ty) (ns : List Node) (c : Checking σ) :
    Notes (ns.flatMap finished) c (o.walkSeq host last ns c).2 := by
  obtain ⟨trace, hnodes, hreplays⟩ := exists_replays_walkSeq (fun n _ => replays_walk o host n) last c
  exact ⟨trace, hnodes, hreplays.types⟩

/-- After a node of a list, those behind it are given types. -/
theorem notes_rest (last : Ty) (before after : List Node) (n : Node) (c : Checking σ) :
    Notes (after.flatMap finished) (o.walk host n (o.walkSeq host last before c).2).2
      (o.walkSeq host last (before ++ n :: after) c).2 := by
  rw [walkSeq_append, walkSeq]
  exact notes_walkSeq ..

theorem notes_arguments (site : Site) (receiver : Option Node) (method : String) (args : List Node) (c : Checking σ) :
    Notes (args.flatMap finished) (o.opened host site receiver method args c).2
      (o.supplied host site receiver method args c) :=
  notes_walkSeq .any args _

/-- After its arguments, only the call itself is given a type. -/
theorem notes_supplied (site : Site) (receiver : Option Node) (method : String) (args : List Node) (c : Checking σ) :
    Notes [.call site receiver method args] (o.supplied host site receiver method args c)
      (o.walk host (.call site receiver method args) c).2 := by
  rw [walk_call]
  exact (Notes.of_types_eq (replays_closeCall o _ _ args).types).record (.call site receiver method args) _

variable {v w : Visit σ}

/-- The checker goes on to a node that is evaluated. After that, those that are evaluated behind it are given types,
and then the node that it came from. -/
theorem GoesOn.notes (h : o.GoesOn host v w) :
    ∃ before after, v.node.evaluated = before ++ w.node :: after ∧
      Notes (after.flatMap finished ++ [v.node]) (o.walk host w.node w.known).2 (o.walk host v.node v.known).2 := by
  -- Asking, comparing and assigning leave the types of nodes as they are, so only what is walked counts.
  cases h with
  | @body site before after n c =>
    exact ⟨before, after, rfl, (notes_rest .any before after n c).record (.seq site (before ++ n :: after)) _⟩
  | @value site name value c =>
    have hassign := Notes.of_types_eq (types_assign o (o.walk host value c).2 site name (o.walk host value c).1)
    exact ⟨[], [], rfl, hassign.record (.assign site name value) _⟩
  | @receiver site r method args c =>
    have hopen := Notes.of_types_eq
      (replays_openCall o (o.walk host r c).2 site (o.walk host r c).1 method args).types
    have hargs := hopen.append (notes_arguments site (some r) method args c)
    exact ⟨[], args, rfl, hargs.append (notes_supplied site (some r) method args c)⟩
  | @argument site receiver method before after n c =>
    refine ⟨receiver.toList ++ before, after, (List.append_assoc ..).symm, ?_⟩
    exact (notes_rest .any before after n _).append (notes_supplied site receiver method (before ++ n :: after) c)
  | @element site before after n c =>
    exact ⟨before, after, rfl, (notes_rest .any before after n c).record (.hash site (before ++ n :: after)) _⟩
  | @pairValue site key value c =>
    have hvalue := Notes.of_types_eq (Eq.refl (o.walk host value c).2.types)
    exact ⟨[], [], rfl, hvalue.record (.pair site key value) _⟩

/-- After a visit, what is given types is what was still to be finished on the visits around it. -/
theorem Visits.notes (h : o.Visits host v w) :
    ∃ earlier later, v.node.finished = earlier ++ w.node.finished ++ later ∧
      Notes later (o.walk host w.node w.known).2 (o.walk host v.node v.known).2 := by
  induction h using Relation.ReflTransGen.head_induction_on with
  | refl => exact ⟨[], [], (List.append_nil _).symm, .of_types_eq rfl⟩
  | head hstep _ ih =>
    -- What this step leaves to be finished comes after all that is left further down.
    obtain ⟨before, after, hevaluated, hrest⟩ := hstep.notes
    obtain ⟨earlier, later, hfinished, hlater⟩ := ih
    refine ⟨before.flatMap finished ++ earlier, _, ?_, hlater.append hrest⟩
    rw [finished_eq, hevaluated, List.flatMap_append, List.flatMap_cons, hfinished]
    simp only [List.append_assoc]

theorem Visits.nodup (h : o.Visits host v w) (hn : (v.node.finished.map Node.id).Nodup) :
    (w.node.finished.map Node.id).Nodup := by
  obtain ⟨earlier, later, hfinished, -⟩ := h.notes
  rw [hfinished, List.append_assoc] at hn
  exact hn.sublist ((List.infix_append' earlier w.node.finished later).sublist.map Node.id)

/-- With different numbers, what is evaluated on a visit keeps its type to the end. -/
theorem Visits.typeOf?_eq (h : o.Visits host v w) (hn : (v.node.finished.map Node.id).Nodup) {n : Node}
    (hmem : n ∈ w.node.finished) :
    (o.walk host v.node v.known).2.typeOf? n = (o.walk host w.node w.known).2.typeOf? n := by
  obtain ⟨earlier, later, hfinished, hlater⟩ := h.notes
  refine hlater.typeOf?_eq fun hid => ?_
  rw [hfinished, List.map_append] at hn
  have hinside := List.mem_map_of_mem (f := Node.id) (List.mem_append_right earlier hmem)
  exact (List.nodup_append.mp hn).2.2 n.id hinside n.id hid rfl

/-- With different numbers, a node has the type that its visit returned in the end. -/
theorem Visits.typeOf?_node (h : o.Visits host v w) (hn : (v.node.finished.map Node.id).Nodup) :
    (o.walk host v.node v.known).2.typeOf? w.node = some (o.walk host w.node w.known).1 := by
  obtain ⟨trace, -, hreplays⟩ := replays_walk o host w.node w.known
  rw [h.typeOf?_eq hn w.node.self_mem_finished]
  exact hreplays.typeOf?_last

/-! ## What is visited -/

theorem exists_goesOn {n m : Node} (h : n.Needs m) (c : Checking σ) : ∃ k, o.GoesOn host ⟨n, c⟩ ⟨m, k⟩ := by
  cases h with
  | body mem =>
    obtain ⟨before, after, rfl⟩ := List.append_of_mem mem
    exact ⟨_, .body⟩
  | value => exact ⟨_, .value⟩
  | receiver => exact ⟨_, .receiver⟩
  | argument mem =>
    obtain ⟨before, after, rfl⟩ := List.append_of_mem mem
    exact ⟨_, .argument⟩
  | element mem =>
    obtain ⟨before, after, rfl⟩ := List.append_of_mem mem
    exact ⟨_, .element⟩
  | pairValue => exact ⟨_, .pairValue⟩

/-- What is evaluated for a node is what is visited from it on, whatever is known. -/
theorem exists_visits_iff {n x : Node} {c : Checking σ} :
    (∃ k, o.Visits host ⟨n, c⟩ ⟨x, k⟩) ↔ x ∈ n.walked := by
  constructor
  · rintro ⟨k, h⟩
    obtain ⟨earlier, later, hfinished, -⟩ := h.notes
    refine n.finished_perm_walked.mem_iff.mp ?_
    rw [hfinished]
    exact List.mem_append_left later (List.mem_append_right earlier x.self_mem_finished)
  · intro h
    have hneeds := mem_walked_iff.mp h
    induction hneeds using Relation.ReflTransGen.head_induction_on generalizing c with
    | refl => exact ⟨c, .refl⟩
    | head hstep hrest ih =>
      obtain ⟨k, hk⟩ := exists_goesOn hstep c
      obtain ⟨k', hk'⟩ := @ih k (mem_walked_iff.mpr hrest)
      exact ⟨k', .head hk hk'⟩

/-! ## What is looked up -/

variable {x : Node} {seen : Checking σ}

/-- What is looked up has been evaluated with the arguments of the call, for which types have been noted. -/
theorem LooksUp.exists_notes (h : o.LooksUp host v x seen) :
    ∃ known before args, v.node.evaluated = before ++ args ∧ x ∈ args.flatMap finished ∧
      Notes (args.flatMap finished) known seen := by
  cases h with
  | @pair site receiver method args c overload before after t x takes pairs =>
    have hpair : (t, x) ∈ overload.formals.pairs args := pairs ▸ List.mem_append_right before (List.mem_cons_self ..)
    have hperm : (args.flatMap finished).Perm (args.flatMap walked) :=
      List.Perm.flatMap_left args fun n _ => n.finished_perm_walked
    have hargs := (notes_arguments site receiver method args c).append
      (.of_types_eq (replays_checkPairs o (o.supplied host site receiver method args c) before).types)
    rw [List.append_nil] at hargs
    exact ⟨_, receiver.toList, args, rfl, hperm.mem_iff.mpr (Formals.mem_walked_of_mem_pairs hpair), hargs⟩

/-- After that only the call itself is given a type. -/
theorem LooksUp.notes (h : o.LooksUp host v x seen) : Notes [v.node] seen (o.walk host v.node v.known).2 := by
  obtain ⟨t, rest, returns, hwalk⟩ := h.resumes
  rw [hwalk]
  exact (Notes.of_types_eq ((replays_expect o seen _ t _).append (replays_checkPairs o _ rest)).types).record v.node _

/-- Whatever the numbers are and whatever was known before, an argument has a type when this is looked up to compare
it with a parameter, and it has been visited from the call. If the nodes that are evaluated have different numbers,
the type that is found is what the visit of the argument returned. -/
theorem typeOf?_looksUp {program : Node} {c : Checking σ} {call : Visit σ}
    (hcall : o.Visits host ⟨program, c⟩ call) (h : o.LooksUp host call x seen) :
    (∃ t, seen.typeOf? x = some t) ∧ (∃ k, o.Visits host call ⟨x, k⟩) ∧
      ((program.walked.map Node.id).Nodup →
        ∀ k, o.Visits host ⟨program, c⟩ ⟨x, k⟩ → seen.typeOf? x = some (o.walk host x k).1) := by
  obtain ⟨known, before, args, hevaluated, hx, hnotes⟩ := h.exists_notes
  have hinside : x ∈ call.node.evaluated.flatMap finished := by
    rw [hevaluated, List.flatMap_append]
    exact List.mem_append_right _ hx
  have hmem : x ∈ call.node.finished := by
    rw [finished_eq]
    exact List.mem_append_left _ hinside
  refine ⟨hnotes.exists_typeOf? hx, exists_visits_iff.mpr (call.node.finished_perm_walked.mem_iff.mp hmem), ?_⟩
  intro hdistinct k hk
  have hn : (program.finished.map Node.id).Nodup := (program.finished_perm_walked.map _).nodup_iff.mpr hdistinct
  -- The call is noted after its arguments have been compared, under a number of its own.
  have hother : x.id ∉ [call.node].map Node.id := by
    intro hid
    have hown := hcall.nodup hn
    rw [finished_eq, List.map_append] at hown
    exact (List.nodup_append.mp hown).2.2 x.id (List.mem_map_of_mem hinside) x.id hid rfl
  calc seen.typeOf? x
    _ = (o.walk host call.node call.known).2.typeOf? x := (h.notes.typeOf?_eq hother).symm
    _ = (o.walk host program c).2.typeOf? x := (hcall.typeOf?_eq hn hmem).symm
    _ = some (o.walk host x k).1 := hk.typeOf?_node hn

/-- The program `x = to_i; to_s(x, limit: to_i)`. -/
def limiting : Node :=
  let site (i : Nat) : Site := ⟨i, .nowhere⟩
  .seq (site 0) [.assign (site 1) "x" (.call (site 2) none "to_i" []),
    .call (site 3) none "to_s" [.read (site 4) "x",
      .hash (site 5) [.pair (site 6) (.lit (site 7) (.sym "limit")) (.call (site 8) none "to_i" [])]]]

/-- The value of the keyword is looked up behind the argument in front of it, and has the type of its conversion. -/
theorem typeOf?_looksUp_limiting :
    let integer := Ty.ofPath ⟨["Integer"], true⟩ []
    let value : Node := .call ⟨8, .nowhere⟩ none "to_i" []
    ∃ call seen k, conversions.Visits .any ⟨limiting, .start ()⟩ call ∧ conversions.LooksUp .any call value seen ∧
      (limiting.walked.map Node.id).Nodup ∧ conversions.Visits .any call ⟨value, k⟩ ∧
      seen.typeOf? value = some integer := by
  intro integer value
  let site (i : Nat) : Site := ⟨i, .nowhere⟩
  let first : Node := .assign (site 1) "x" (.call (site 2) none "to_i" [])
  let args : List Node :=
    [.read (site 4) "x", .hash (site 5) [.pair (site 6) (.lit (site 7) (.sym "limit")) value]]
  let call : Visit Unit := ⟨.call (site 3) none "to_s" args, (conversions.walkSeq .any .any [first] (.start ())).2⟩
  have hstep : conversions.GoesOn .any ⟨.seq (site 0) ([first] ++ call.node :: []), .start ()⟩ call := .body
  have hcall : conversions.Visits .any ⟨limiting, .start ()⟩ call := .single hstep
  let overload : Overload := { Overload.permissive with returns := .ofPath ⟨["String"], true⟩ [] }
  have htakes : (conversions.opened .any (site 3) none "to_s" args call.known).1 = some overload := rfl
  have hpairs : overload.formals.pairs args = [(Ty.any, Node.read (site 4) "x")] ++ (Ty.any, value) :: [] := rfl
  have hlook := LooksUp.pair htakes hpairs
  have hdistinct : (limiting.walked.map Node.id).Nodup := by decide
  obtain ⟨-, ⟨k, hk⟩, hsame⟩ := typeOf?_looksUp hcall hlook
  exact ⟨call, _, k, hcall, hlook, hdistinct, hk, hsame hdistinct k (hcall.trans hk)⟩

end Oracle

end MixinTypes
