import MixinTypes.World.Memo

/-!
# Linking

Linking turns plans into interfaces. `World.link` finds the interface of a name, or the reason why
there is none: a name without a declaration, or a cycle of requests. It carries a memo along, which
marks the names in progress and keeps what has been built.

The recursion ends because every name that is entered has a plan and was not in progress. Main
statements: the equations `link_of_done`, `link_of_inProgress`, `link_of_unknown` and `link_of_plan`,
and the induction principle `link_induction` with the same four cases.
-/

namespace MixinTypes

/-- Why a name has no interface. -/
inductive LinkError where
  /-- A cycle of requests, outermost first, ending with the name that was met again. -/
  | recursive (chain : List Nominal)
  /-- A name without a declaration of the kind it needs. -/
  | unknown (name : Nominal) (cause : LookupError)
deriving DecidableEq

namespace LinkError

/-- The error as seen from `n`, which requested what failed: a cycle is told from there. -/
def within (n : Nominal) : LinkError → LinkError
  | .recursive chain => .recursive (n :: chain)
  | .unknown name cause => .unknown name cause

def render : LinkError → String
  | .recursive chain =>
    "Recursive inheritance/mixin " ++ " ~> ".intercalate (chain.map Nominal.render)
  | .unknown name cause => s!"Cannot build interface for `{name}`: {cause}"

/-- Whether linking ended with this error. -/
instance (r : Except LinkError α) (e : LinkError) : Decidable (r = .error e) :=
  match r with
  | .error e' => decidable_of_iff (e' = e) ⟨congrArg _, Except.error.inj⟩
  | .ok _ => .isFalse fun h => nomatch h

end LinkError

/-- What linking gives: a value or an error, and what the memo has learned in either case. -/
abbrev Linked (w : World) (α : Type) := Except LinkError α × Memo w

/-- Interfaces for all requests of some steps. -/
structure Found (w : World) (steps : List Step) where
  get : Nominal → Interface
  built : ∀ r ∈ steps.filterMap Step.request?, Built w r (get r)

namespace Found

/-- No step, no request. -/
def nil : Found w [] := ⟨.bare, by simp⟩

/-- A step without a request. -/
def skip {s : Step} (h : s.request? = none) (f : Found w steps) : Found w (s :: steps) :=
  ⟨f.get, by simpa [h] using f.built⟩

/-- A step with a request. -/
def cons {s : Step} (h : s.request? = some r) (i : { i // Built w r i }) (f : Found w steps) :
    Found w (s :: steps) where
  get n := if n = r then i.1 else f.get n
  built n hn := by
    rw [List.filterMap_cons_some h] at hn
    split
    · next e => subst e; exact i.2
    · next e => exact f.built n ((List.mem_cons.mp hn).resolve_left e)

end Found

/-- What a step leaves in the memo's notes. -/
def Step.noted : Step → List Unresolved
  | .note u => [u]
  | _ => []

theorem Step.noted_of_request? {s : Step} {r : Nominal} (h : s.request? = some r) : s.noted = [] := by
  cases s with
  | seed | mix => rfl
  | _ => cases h

/-- Take notes with `note` and obtain the requested interfaces with `link`, step by step. -/
def gather (note : σ → List Unresolved → σ)
    (link : (r : Nominal) → σ → Except LinkError { i // Built w r i } × σ) :
    (steps : List Step) → σ → Except LinkError (Found w steps) × σ
  | [], s => (.ok .nil, s)
  | step :: steps, s =>
    match h : step.request? with
    | none =>
      match gather note link steps (note s step.noted) with
      | (.error e, s) => (.error e, s)
      | (.ok found, s) => (.ok (found.skip h), s)
    | some r =>
      match link r s with
      | (.error e, s) => (.error e, s)
      | (.ok i, s) =>
        match gather note link steps s with
        | (.error e, s) => (.error e, s)
        | (.ok found, s) => (.ok (found.cons h i), s)

/-- Gathering sees a state only through `note` and `link`. -/
theorem gather_map (note : σ → List Unresolved → σ) (note' : τ → List Unresolved → τ)
    (link : (r : Nominal) → σ → Except LinkError { i // Built w r i } × σ)
    (link' : (r : Nominal) → τ → Except LinkError { i // Built w r i } × τ) (f : σ → τ)
    (hnote : ∀ s us, note' (f s) us = f (note s us))
    (hlink : ∀ r s, link' r (f s) = ((link r s).1, f (link r s).2)) (steps : List Step) (s : σ) :
    gather note' link' steps (f s) =
      ((gather note link steps s).1, f (gather note link steps s).2) := by
  induction steps generalizing s with
  | nil => rfl
  | cons step steps ih =>
    unfold gather
    split
    · rw [hnote, ih]
      rcases gather note link steps (note s step.noted) with ⟨_ | _, _⟩ <;> rfl
    · next r _ =>
      rw [hlink]
      rcases link r s with ⟨_ | _, s'⟩
      · rfl
      · simp only [ih]
        rcases gather note link steps s' with ⟨_ | _, _⟩ <;> rfl

section Gather

variable {w : World} {note : σ → List Unresolved → σ}
  {link : (r : Nominal) → σ → Except LinkError { i // Built w r i } × σ} (inv : σ → Prop)

/-- What the notes of the steps and requests preserve, gathering preserves. -/
theorem gather_preserves_of_mem {steps : List Step}
    (hnote : ∀ step ∈ steps, ∀ s, inv s → inv (note s step.noted))
    (hlink : ∀ r s, inv s → inv (link r s).2) {s : σ} (hs : inv s) :
    inv (gather note link steps s).2 := by
  induction steps generalizing s with
  | nil => exact hs
  | cons step steps ih =>
    obtain ⟨hstep, hsteps⟩ := List.forall_mem_cons.mp hnote
    unfold gather
    split
    · have h := ih hsteps (hstep s hs)
      split <;> simp_all
    · next r _ =>
      have h := hlink r s hs
      split
      · next h' => rwa [h'] at h
      · next h' =>
        rw [h'] at h
        have h := ih hsteps h
        split <;> simp_all

variable (hnote : ∀ s us, inv s → inv (note s us)) (hlink : ∀ r s, inv s → inv (link r s).2)

include hnote hlink

/-- What notes and requests preserve, gathering preserves. -/
theorem gather_preserves (steps : List Step) {s : σ} (hs : inv s) :
    inv (gather note link steps s).2 :=
  gather_preserves_of_mem inv (fun step _ s => hnote s step.noted) hlink hs

/-- Gathering fails with the first request that fails; what was requested before it has been built. -/
theorem exists_of_gather_eq_error {steps : List Step} {s s' : σ} {e : LinkError} (hs : inv s)
    (h : gather note link steps s = (.error e, s')) :
    ∃ before r after t, steps.filterMap Step.request? = before ++ r :: after ∧
      (∀ q ∈ before, ∃ i, Built w q i) ∧ inv t ∧ (link r t).1 = .error e := by
  induction steps generalizing s with
  | nil => cases h
  | cons step steps ih =>
    unfold gather at h
    split at h
    · next hr =>
      split at h
      · next h' =>
        cases h
        rw [List.filterMap_cons_none hr]
        exact ih (hnote s step.noted hs) h'
      · cases h
    · next r hr =>
      rw [List.filterMap_cons_some hr]
      split at h
      · next h' =>
        cases h
        exact ⟨[], r, _, s, rfl, by simp, hs, by rw [h']⟩
      · next i s₁ h₁ =>
        have hs₁ : inv s₁ := by
          have := hlink r s hs
          rwa [h₁] at this
        split at h
        · next h' =>
          cases h
          obtain ⟨before, q, after, t, hsplit, hbuilt, ht, he⟩ := ih hs₁ h'
          refine ⟨r :: before, q, after, t, by rw [hsplit]; rfl, ?_, ht, he⟩
          intro k hk
          rcases List.mem_cons.mp hk with rfl | hk
          · exact ⟨i.1, i.2⟩
          · exact hbuilt k hk
        · cases h

end Gather

namespace World

/-- The interface of `n`. While its plan is carried out `n` is in progress, so that a request for it
is seen to be a cycle; in the end `n` is left, or built. -/
def linkBelow (w : World) (n : Nominal) (m : Memo w) :
    Except LinkError { i // Built w n i } × m.After :=
  match hn : m.entries.get? n with
  | some (.done i) => (.ok ⟨i, m.sound hn⟩, ⟨m, .refl m⟩)
  | some .inProgress => (.error (.recursive [n]), ⟨m, .refl m⟩)
  | none =>
    let entered : (m.enter n).After := ⟨m.enter n, .refl _⟩
    match hp : w.plan n with
    | .error cause => (.error (.unknown n cause), ⟨entered.1.leave n, .leave hn entered.2⟩)
    | .ok p =>
      let request (r : Nominal) (s : (m.enter n).After) :
          Except LinkError { i // Built w r i } × (m.enter n).After :=
        let got := w.linkBelow r s.1
        (got.1, ⟨got.2.1, s.2.trans got.2.2⟩)
      match gather Memo.After.note request p.steps entered with
      | (.error e, s) => (.error (e.within n), ⟨s.1.leave n, .leave hn s.2⟩)
      | (.ok found, s) =>
        let i := ⟨p.assemble found.get, .intro found.get hp found.built⟩
        (.ok i, ⟨s.1.store i, .store hn s.2 i⟩)
termination_by m.remaining
decreasing_by exact Memo.remaining_lt hn hp s.2

/-- The interface of `n`, with the memo as it is afterwards. -/
def link (w : World) (n : Nominal) (m : Memo w) : Linked w { i // Built w n i } :=
  let got := w.linkBelow n m
  (got.1, got.2.1)

/-! ## What linking does, case by case -/

variable {w : World} {n : Nominal} {m : Memo w}

theorem link_of_done {i : Interface} (h : m.entries.get? n = some (.done i)) :
    w.link n m = (.ok ⟨i, m.sound h⟩, m) := by
  unfold link
  rw [linkBelow]
  split
  · next h' => rw [h] at h'; cases h'; rfl
  · next h' => rw [h] at h'; cases h'
  · next h' => rw [h] at h'; cases h'

theorem link_of_inProgress (h : m.entries.get? n = some .inProgress) :
    w.link n m = (.error (.recursive [n]), m) := by
  unfold link
  rw [linkBelow]
  split
  · next h' => rw [h] at h'; cases h'
  · rfl
  · next h' => rw [h] at h'; cases h'

theorem link_of_unknown {cause : LookupError} (h : m.entries.get? n = none)
    (hp : w.plan n = .error cause) :
    w.link n m = (.error (.unknown n cause), (m.enter n).leave n) := by
  unfold link
  rw [linkBelow]
  split
  · next h' => rw [h] at h'; cases h'
  · next h' => rw [h] at h'; cases h'
  · split
    · next h' => rw [hp] at h'; cases h'; rfl
    · next h' => rw [hp] at h'; cases h'

theorem link_of_plan {p : Plan} (h : m.entries.get? n = none) (hp : w.plan n = .ok p) :
    w.link n m =
      match gather Memo.note w.link p.steps (m.enter n) with
      | (.error e, m) => (.error (e.within n), m.leave n)
      | (.ok found, m) =>
        let i := ⟨p.assemble found.get, .intro found.get hp found.built⟩
        (.ok i, m.store i) := by
  -- below `n` the memo travels with the proof that `n` stays in progress; gathering does not see it
  have plain := gather_map Memo.After.note Memo.note
    (fun r (s : (m.enter n).After) =>
      ((w.linkBelow r s.1).1, ⟨(w.linkBelow r s.1).2.1, s.2.trans (w.linkBelow r s.1).2.2⟩))
    w.link Subtype.val (fun _ _ => rfl) (fun _ _ => rfl) p.steps ⟨m.enter n, .refl _⟩
  rw [plain]
  unfold link
  rw [linkBelow]
  split
  · next h' => rw [h] at h'; cases h'
  · next h' => rw [h] at h'; cases h'
  · split
    · next h' => rw [hp] at h'; cases h'
    · next h' =>
      rw [hp] at h'
      cases h'
      simp only
      split <;> simp_all

/-- To prove something of every name and memo, assume it of whatever is requested once the name has
been entered. -/
theorem link_induction {P : Nominal → Memo w → Prop}
    (done : ∀ n m i, m.entries.get? n = some (.done i) → P n m)
    (inProgress : ∀ n m, m.entries.get? n = some .inProgress → P n m)
    (unknown : ∀ n m cause, m.entries.get? n = none → w.plan n = .error cause → P n m)
    (plan : ∀ n m p, m.entries.get? n = none → w.plan n = .ok p →
      (∀ r m', (m.enter n).Keeps m' → P r m') → P n m)
    (n : Nominal) (m : Memo w) : P n m := by
  induction hr : m.remaining using Nat.strongRecOn generalizing n m with
  | ind k ih =>
    subst hr
    match hn : m.entries.get? n with
    | some (.done i) => exact done n m i hn
    | some .inProgress => exact inProgress n m hn
    | none =>
      match hp : w.plan n with
      | .error cause => exact unknown n m cause hn hp
      | .ok p => exact plan n m p hn hp fun r m' hk => ih _ (Memo.remaining_lt hn hp hk) r m' rfl

end World

/-! ## What can be asked

Every answer follows from the world alone; the memo takes notes and keeps what is built, also when
the answer is an error. -/

namespace World

/-- The absolute form of a name. -/
def resolveName (w : World) (scope : Option Path) (n : Nominal) (m : Memo w) : Nominal × Memo w :=
  (w.absoluteName scope n, m.note (w.unresolved? scope n).toList)

/-- A type with absolute names. -/
def resolveTy (w : World) (scope : Option Path) (t : Ty) (m : Memo w) : Ty × Memo w :=
  (w.absoluteTy scope t, m.note (w.unresolvedIn scope t))

/-- The formal parameters that a written list declares. -/
def resolveParams (w : World) (scope : Option Path) (ps : List Param) (m : Memo w) :
    Formals × Memo w :=
  (.ofParams (ps.map (Param.mapType (w.absoluteTy scope))),
    m.note (((Param.effective ps).map Param.type).flatMap (w.unresolvedIn scope)))

/-- The overload that a signature declares, with `result` in place of its result if that is given. -/
def resolveSignature (w : World) (scope : Option Path) (result : Option Ty) (s : Signature)
    (m : Memo w) : Overload × Memo w :=
  (w.overload scope result s, m.note (w.unresolvedInSignature scope result s))

/-- The interface of a name written in `scope`. -/
def interfaceOf (w : World) (scope : Option Path) (n : Nominal) (m : Memo w) : Linked w Interface :=
  let resolved := w.resolveName scope n m
  let got := w.link resolved.1 resolved.2
  (got.1.map Subtype.val, got.2)

theorem fst_interfaceOf (w : World) (scope : Option Path) (n : Nominal) (m : Memo w) :
    (w.interfaceOf scope n m).1 =
      (w.link (w.absoluteName scope n) (m.note (w.unresolved? scope n).toList)).1.map Subtype.val :=
  rfl

/-- Merge the interface of a name written in `scope` into what has been gathered. -/
def mergeMixin (w : World) (scope : Path) (n : Nominal) (args : List Ty) (g : Gathered)
    (m : Memo w) : Linked w Gathered :=
  let got := w.interfaceOf (some scope) n m
  (got.1.map (g.merge · args), got.2)

/-- Add a method declared by `owner` to a table. -/
def addMethod (w : World) (owner : Nominal) (d : MethodDecl) (t : MethodTable) (m : Memo w) :
    MethodTable × Memo w :=
  (t.override d.name (.ofDefinition (w.definition (some owner.path) owner d)),
    m.note (d.signatures.flatMap (w.unresolvedInSignature (some owner.path) none)))

end World

end MixinTypes
