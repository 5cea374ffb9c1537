import MixinTypes.Proofs.Linking.Failure

/-!
# What linking answers

While nothing is in progress, the answer to a request follows from the declarations alone.

1. Linking succeeds on the built names and fails on the others for the one reason that `Fails` gives,
   so two memos with nothing in progress lead to the same answer (`link_eq_link`). Every memo of a
   session is such a memo, so what was asked before does not matter (`interfaceOf_after_eq`).
2. A failure has its cause at some distance: a name that is needed and not declared, or one that is
   needed and depends on itself (`Fails.exists_cause`). No built name has such a cause, so exactly the
   names without one have an interface (`exists_interfaceOf_after_iff`).
-/

namespace MixinTypes

variable {w : World} {n : Nominal} {m m' : Memo w}

/-! ## The memo does not matter -/

namespace World

/-- With nothing in progress, a failure is one from the top. -/
theorem fails_of_closed {e : LinkError} (hm : ∀ k, m.isOpen k = false)
    (h : (w.link n m).1 = .error e) : Fails w [] n e :=
  fails_of_link_eq_error (fun k => by simp [hm k]) h

theorem link_ok_of_built {i : Interface} (hm : ∀ k, m.isOpen k = false) (hi : Built w n i) :
    (w.link n m).1 = .ok ⟨i, hi⟩ := by
  rcases h : (w.link n m).1 with e | ⟨j, hj⟩
  · exact absurd hi ((fails_of_closed hm h).not_built (by simp))
  · obtain rfl := hi.unique hj
    rfl

theorem link_eq_link (hm : ∀ k, m.isOpen k = false) (hm' : ∀ k, m'.isOpen k = false) :
    (w.link n m).1 = (w.link n m').1 := by
  rcases h : (w.link n m).1 with e | ⟨i, hi⟩
  · rcases h' : (w.link n m').1 with e' | ⟨j, hj⟩
    · rw [(fails_of_closed hm h).unique (fails_of_closed hm' h') (by simp)]
    · rw [link_ok_of_built hm hj] at h
      cases h
  · rw [link_ok_of_built hm' hi]

/-- With nothing in progress, the interface that is obtained is the one that is built. -/
theorem interfaceOf_eq_ok_iff {scope : Option Path} {i : Interface} (hm : ∀ k, m.isOpen k = false) :
    (w.interfaceOf scope n m).1 = .ok i ↔ Built w (w.absoluteName scope n) i := by
  rw [fst_interfaceOf]
  constructor
  · intro h
    obtain ⟨⟨_, hi⟩, -, rfl⟩ := exists_of_map_eq_ok h
    exact hi
  · intro hi
    rw [link_ok_of_built (fun k => (Memo.isOpen_note ..).trans (hm k)) hi]
    rfl

theorem interfaceOf_constant_iff {c : Constant} {i : Interface} (hm : ∀ k, m.isOpen k = false)
    (hc : w.decls.constantAt? c.path = some c) :
    (w.interfaceOf none ⟨.instances, c.path⟩ m).1 = .ok i ↔ Built w ⟨.instances, c.path⟩ i := by
  have habs := w.decls.constants_absolute c (Declarations.mem_of_constantAt? hc)
  rw [interfaceOf_eq_ok_iff hm, absoluteName_of_absolute habs]

/-- An interface of which something has been worked out. -/
theorem exists_built_of_map_eq {f : Interface → α} {a : α}
    (h : (w.interfaceOf none n (.empty w)).1.toOption.map f = some a) :
    ∃ i, (w.interfaceOf none n (.empty w)).1 = .ok i ∧ Built w n.toAbsolute i ∧ f i = a := by
  obtain ⟨i, hi, heq⟩ := Option.map_eq_some_iff.mp h
  have hi := eq_ok_of_toOption_eq_some hi
  exact ⟨i, hi, (interfaceOf_eq_ok_iff Memo.isOpen_empty).mp hi, heq⟩

/-- What was asked before, and how it ended, changes no answer: neither an interface nor an error. -/
theorem interfaceOf_after_eq (w : World) (history : List Operation) (scope : Option Path)
    (n : Nominal) :
    (w.interfaceOf scope n (w.after history)).1 = (w.interfaceOf scope n (.empty w)).1 := by
  rw [fst_interfaceOf, fst_interfaceOf]
  congr 1
  exact link_eq_link (isOpen_note_after history _) (isOpen_note_after [] _)

end World

/-! ## Which names have an interface -/

namespace Fails

/-- Linking fails because of a name that is needed: it is not declared, or in progress, or depends on
itself. -/
theorem exists_cause {frames : List Nominal} {e : LinkError} (h : Fails w frames n e) :
    (∃ r, w.Reaches n r ∧ ¬ w.Declared r) ∨ (∃ f ∈ frames, w.Reaches n f) ∨
      ∃ r, w.Reaches n r ∧ Relation.TransGen w.DependsOn r r := by
  induction h with
  | cycle entered => exact .inr (.inl ⟨_, entered, .refl⟩)
  | @unknown frames n cause fresh noPlan =>
    refine .inl ⟨n, .refl, fun hd => ?_⟩
    obtain ⟨p, hp⟩ := World.declared_iff.mp hd
    rw [noPlan] at hp
    cases hp
  | @request frames n r p before after e fresh plan split built fails ih =>
    have hr : w.DependsOn n r := World.dependsOn_of_split plan split
    rcases ih with ⟨k, hk, hd⟩ | ⟨f, hf, hk⟩ | ⟨k, hk, hc⟩
    · exact .inl ⟨k, .head hr hk, hd⟩
    · rcases List.mem_cons.mp hf with rfl | hf
      -- the request leads back to the name itself
      · exact .inr (.inr ⟨f, .refl, Relation.TransGen.head' hr hk⟩)
      · exact .inr (.inl ⟨f, hf, .head hr hk⟩)
    · exact .inr (.inr ⟨k, .head hr hk, hc⟩)

end Fails

namespace World

theorem exists_built_iff :
    (∃ i, Built w n i) ↔ (∀ r, w.Reaches n r → w.Declared r) ∧
      ¬ ∃ r, w.Reaches n r ∧ Relation.TransGen w.DependsOn r r := by
  constructor
  · rintro ⟨i, hi⟩
    constructor
    · intro r hr
      obtain ⟨j, hj⟩ := hi.of_reaches hr
      exact hj.declared
    · rintro ⟨r, hr, hc⟩
      obtain ⟨j, hj⟩ := hi.of_reaches hr
      exact hj.not_dependsOn_self hc
  · rintro ⟨hd, hc⟩
    rcases h : (w.link n (.empty w)).1 with e | i
    · rcases (fails_of_closed Memo.isOpen_empty h).exists_cause with ⟨r, hr, hn⟩ | ⟨f, hf, -⟩ | hcycle
      · exact absurd (hd r hr) hn
      · cases hf
      · exact absurd hcycle hc
    · exact ⟨i.1, i.2⟩

/-- At any time in a session, a name has an interface exactly when everything it needs is declared
and nothing it needs depends on itself. -/
theorem exists_interfaceOf_after_iff (w : World) (history : List Operation) (scope : Option Path)
    (n : Nominal) :
    (∃ i, (w.interfaceOf scope n (w.after history)).1 = .ok i) ↔
      (∀ r, w.Reaches (w.absoluteName scope n) r → w.Declared r) ∧
        ¬ ∃ r, w.Reaches (w.absoluteName scope n) r ∧ Relation.TransGen w.DependsOn r r := by
  rw [← exists_built_iff]
  constructor
  · rintro ⟨i, hi⟩
    obtain ⟨j, -, -⟩ := exists_of_map_eq_ok hi
    exact ⟨j.1, j.2⟩
  · rintro ⟨i, hi⟩
    refine ⟨i, ?_⟩
    rw [fst_interfaceOf, link_ok_of_built (isOpen_note_after history _) hi]
    rfl

end World

end MixinTypes
