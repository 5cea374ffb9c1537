import MixinTypes.World.Plan

/-!
# Built interfaces

`Built w n i` says that `i` is the interface of `n` in the world `w`: its plan carried out on the
interfaces of the names it requests. No procedure is involved, and a name on a cycle of requests has
no interface. Main statements: `Built.unique`, and `mem_candidates_of_plan`, by which only finitely
many names have a plan.
-/

namespace MixinTypes

/-- `i` is the interface of `n`: its plan, carried out on the interfaces of what it requests. -/
inductive Built (w : World) : Nominal → Interface → Prop where
  | intro {n : Nominal} {p : Plan} (found : Nominal → Interface) (plan : w.plan n = .ok p)
      (requests : ∀ r ∈ p.requests, Built w r (found r)) : Built w n (p.assemble found)

theorem Step.apply_congr {f g : Nominal → Interface} {s : Step}
    (h : ∀ r, s.request? = some r → f r = g r) (acc : Gathered) : s.apply f acc = s.apply g acc := by
  cases s with
  | seed source args => simp only [apply, h source rfl]
  | mix source args => simp only [apply, h source rfl]
  | _ => rfl

/-- Only the requested interfaces matter. -/
theorem Step.foldl_apply_congr {f g : Nominal → Interface} {ss : List Step}
    (h : ∀ s ∈ ss, ∀ r, s.request? = some r → f r = g r) (acc : Gathered) :
    ss.foldl (Step.apply f) acc = ss.foldl (Step.apply g) acc := by
  induction ss generalizing acc with
  | nil => rw [List.foldl_nil, List.foldl_nil]
  | cons s ss ih =>
    rw [List.foldl_cons, List.foldl_cons, apply_congr (h s (List.mem_cons_self ..))]
    exact ih (fun x hx => h x (List.mem_cons_of_mem _ hx)) _

theorem Plan.assemble_congr {p : Plan} {f g : Nominal → Interface}
    (h : ∀ r ∈ p.requests, f r = g r) : p.assemble f = p.assemble g := by
  have same : p.gathered f = p.gathered g :=
    Step.foldl_apply_congr (fun s hs r hr => h r (List.mem_filterMap.mpr ⟨s, hs, hr⟩)) _
  rw [Plan.assemble, Plan.assemble, same]

/-- A name has at most one interface. -/
theorem Built.unique {w : World} {n : Nominal} {i j : Interface} (hi : Built w n i)
    (hj : Built w n j) : i = j := by
  induction hi generalizing j with
  | intro f hp _ ih =>
    cases hj with
    | intro g hq hg =>
      obtain rfl := Except.ok.inj (hp.symm.trans hq)
      exact Plan.assemble_congr fun r hr => ih r hr (hg r hr)

/-! ## The names that have a plan -/

namespace World

/-- Every name that has a plan, and some more. -/
def candidates (w : World) : List Nominal :=
  (w.decls.constants.map Constant.path ++ w.decls.protocols.map Protocol.path).flatMap fun p =>
    [p, { p with absolute := false }].flatMap fun q =>
      [.instances, .moduleObject, .classObject true, .classObject false, .protocol].map fun f =>
        ⟨f, q⟩

theorem mem_candidates {w : World} {n : Nominal}
    (h : n.path.toAbsolute ∈ w.decls.constants.map Constant.path ++
      w.decls.protocols.map Protocol.path) : n ∈ w.candidates := by
  obtain ⟨facet, segments, absolute⟩ := n
  refine List.mem_flatMap.mpr ⟨_, h, List.mem_flatMap.mpr ⟨⟨segments, absolute⟩, ?_, ?_⟩⟩
  · cases absolute <;> simp [Path.toAbsolute]
  · rcases facet with _ | _ | ⟨_ | _⟩ | _ <;> simp

theorem mem_candidates_of_plan {w : World} {n : Nominal} {p : Plan} (h : w.plan n = .ok p) :
    n ∈ w.candidates := by
  have constant : ∀ {c : Constant}, w.decls.find none n.path = .ok c → n ∈ w.candidates := by
    intro c hc
    refine mem_candidates (List.mem_append_left _ (List.mem_map.mpr ⟨c, ?_, ?_⟩))
    · exact Declarations.mem_of_find hc
    · exact Declarations.path_of_find_none hc
  unfold plan at h
  split at h
  · obtain ⟨c, hc, _⟩ := exists_of_map_eq_ok h
    exact constant hc
  · obtain ⟨c, hc, _⟩ := exists_of_map_eq_ok h
    exact constant (Declarations.find_of_findKind hc).1
  · obtain ⟨c, hc, _⟩ := exists_of_map_eq_ok h
    exact constant (Declarations.find_of_findKind hc).1
  · obtain ⟨q, hq, _⟩ := exists_of_map_eq_ok h
    have hq := Declarations.protocolAt?_of_findProtocol hq
    refine mem_candidates (List.mem_append_right _ (List.mem_map.mpr ⟨q, ?_, ?_⟩))
    · exact Declarations.mem_of_protocolAt? hq
    · exact Declarations.path_of_protocolAt? hq

end World

end MixinTypes
