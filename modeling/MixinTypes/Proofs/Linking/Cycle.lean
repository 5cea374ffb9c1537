import MixinTypes.Proofs.Linking.Outcome

/-!
# Reported cycles

The chain of a cycle is put together from its end: the frame that meets a name in progress gives that
name, and every frame on the way back puts its own in front. So a chain reported at the top begins
with the requested name, follows dependencies, repeats no name before its last one, and closes there.
-/

namespace MixinTypes

variable {w : World}

/-- The chain of a failure follows dependencies from the name through ones that are not in progress,
all different, to one that was met before: in progress or on the chain. -/
theorem Fails.exists_path {frames : List Nominal} {n : Nominal} {e : LinkError}
    (h : Fails w frames n e) {chain : List Nominal} (he : e = .recursive chain) :
    ∃ path last, chain = path ++ [last] ∧ chain.head? = some n ∧ path.Nodup ∧
      (∀ k ∈ path, k ∉ frames) ∧ last ∈ path ++ frames ∧ chain.IsChain w.DependsOn := by
  induction h generalizing chain with
  | @cycle frames n entered =>
    cases he
    exact ⟨[], n, rfl, rfl, List.nodup_nil, by simp, entered, .singleton n⟩
  | unknown => cases he
  | @request frames n r p before after e fresh plan split built fails ih =>
    have hr : w.DependsOn n r := World.dependsOn_of_split plan split
    cases e with
    | unknown => cases he
    | recursive below =>
      cases he
      obtain ⟨path, last, hsplit, hhead, hnodup, hfresh, hlast, hchain⟩ := ih rfl
      refine ⟨n :: path, last, by rw [hsplit]; rfl, rfl, ?_, ?_, ?_, ?_⟩
      · exact List.nodup_cons.mpr ⟨fun hn => hfresh n hn (List.mem_cons_self ..), hnodup⟩
      · intro k hk
        rcases List.mem_cons.mp hk with rfl | hk
        · exact fresh
        · exact fun hf => hfresh k hk (List.mem_cons_of_mem _ hf)
      · rcases List.mem_append.mp hlast with hl | hl
        · exact List.mem_append_left _ (List.mem_cons_of_mem _ hl)
        · rcases List.mem_cons.mp hl with rfl | hl
          · exact List.mem_append_left _ (List.mem_cons_self ..)
          · exact List.mem_append_right _ hl
      · cases below with
        | nil => cases hhead
        | cons k below =>
          obtain rfl := Option.some.inj hhead
          exact .cons_cons hr hchain

namespace World

/-- A reported cycle is a real one, and it is closed: the chain leads from the requested name over
different names, each needed directly by the one before it, to one of them again. -/
theorem chain_closes (w : World) (history : List Operation) (scope : Option Path) (n : Nominal)
    (chain : List Nominal)
    (h : (w.interfaceOf scope n (w.after history)).1 = .error (.recursive chain)) :
    ∃ path last, chain = path ++ [last] ∧ path.head? = some (w.absoluteName scope n) ∧
      path.Nodup ∧ last ∈ path ∧ chain.IsChain w.DependsOn := by
  rw [fst_interfaceOf] at h
  have hfails : Fails w [] (w.absoluteName scope n) (.recursive chain) :=
    fails_of_closed (isOpen_note_after history _) (eq_error_of_map_eq_error h)
  obtain ⟨path, last, rfl, hhead, hnodup, -, hlast, hchain⟩ := hfails.exists_path rfl
  rw [List.append_nil] at hlast
  refine ⟨path, last, rfl, ?_, hnodup, hlast, hchain⟩
  cases path with
  | nil => cases hlast
  | cons k path => exact hhead

/-- The instances of a constant at the top level. -/
def instancesOf (name : String) : Nominal := ⟨.instances, ⟨[name], true⟩⟩

/-- Two classes that are each other's superclass, and a third below them. -/
def entangled : World where
  decls := (Declarations.empty.addAll
    [.constant ⟨⟨["A"], true⟩, [], [], .nowhere, .cls (some ⟨⟨["B"], false⟩, []⟩)⟩,
     .constant ⟨⟨["B"], true⟩, [], [], .nowhere, .cls (some ⟨⟨["A"], false⟩, []⟩)⟩,
     .constant ⟨⟨["C"], true⟩, [], [], .nowhere, .cls (some ⟨⟨["A"], false⟩, []⟩)⟩]).1
  roots := .standard

/-- The third class leads into the cycle, which was reported before from within. -/
theorem chain_closes_entangled :
    let chain := ["C", "A", "B", "A"].map instancesOf
    (entangled.interfaceOf none (instancesOf "C")
        (entangled.after [.interface none (instancesOf "B")])).1 = .error (.recursive chain) ∧
      ∃ path last, chain = path ++ [last] ∧
        path.head? = some (entangled.absoluteName none (instancesOf "C")) ∧
        path.Nodup ∧ last ∈ path ∧ chain.IsChain entangled.DependsOn :=
  have h : (entangled.interfaceOf none (instancesOf "C")
      (entangled.after [.interface none (instancesOf "B")])).1 =
        .error (.recursive (["C", "A", "B", "A"].map instancesOf)) := by
    decide +kernel
  ⟨h, chain_closes entangled [.interface none (instancesOf "B")] none (instancesOf "C") _ h⟩

end World

end MixinTypes
