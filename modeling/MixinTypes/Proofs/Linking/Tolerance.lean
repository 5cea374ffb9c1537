import MixinTypes.Proofs.Ancestry.Methods
import MixinTypes.Proofs.Ancestry.Supers
import MixinTypes.Proofs.Linking.Closure
import MixinTypes.Proofs.Linking.Keys
import MixinTypes.Proofs.Reading.Canonical

/-!
# Names that are tolerated

A name in a type that cannot be resolved does not keep an interface from being built. It stays as it is
written, and a note tells of it. So every name in a type of an interface starts at the root or has been noted,
and what the notes say is true.

1. Every name in the types that a step brings in starts at the root or is noted by a step of the same plan
   (`Accounted`, one lemma for each group of steps).
2. Carrying out the steps adds no names but theirs and those of the requested interfaces
   (`Plan.forall_mem_names_assemble`).
3. A memo holds the notes of all plans whose interfaces it holds, so by induction on how an interface was
   built all its names are accounted for (`grounded_names_of_done`).
-/

namespace MixinTypes

/-! ## What notes say -/

namespace World

variable {w : World} {scope : Option Path} {u : Unresolved}

/-- The look-up that the note tells of fails for the cause that it gives. -/
def Confirms (w : World) (u : Unresolved) : Prop := w.locate u.scope u.name = .error u.cause

theorem confirms_of_unresolved? {n : Nominal} (h : w.unresolved? scope n = some u) : w.Confirms u :=
  (locate_of_unresolved? h).2.2

theorem confirms_unresolvedIn (w : World) (scope : Option Path) (t : Ty) :
    ∀ u ∈ w.unresolvedIn scope t, w.Confirms u := by
  intro u hu
  obtain ⟨n, -, h⟩ := List.mem_filterMap.mp hu
  exact confirms_of_unresolved? h

theorem confirms_unresolvedInSignature (w : World) (scope : Option Path) (result : Option Ty)
    (s : Signature) : ∀ u ∈ w.unresolvedInSignature scope result s, w.Confirms u :=
  List.forall_mem_flatMap.mpr fun t _ => w.confirms_unresolvedIn scope t

theorem confirms_toList (w : World) (scope : Option Path) (n : Nominal) :
    ∀ u ∈ (w.unresolved? scope n).toList, w.Confirms u := fun _ hu =>
  confirms_of_unresolved? (Option.mem_toList.mp hu)

/-! ## What is noted of types -/

theorem Grounded.flatMap {f : α → List Unresolved} {xs : List α} {x : α} {n : Nominal} (hx : x ∈ xs)
    (h : w.Grounded (f x) n) : w.Grounded (xs.flatMap f) n :=
  h.mono fun _ hu => List.mem_flatMap.mpr ⟨x, hx, hu⟩

theorem grounded_absoluteTy (w : World) (scope : Option Path) (t : Ty) :
    ∀ x ∈ (w.absoluteTy scope t).names, w.Grounded (w.unresolvedIn scope t) x := by
  rw [absoluteTy, Ty.names_mapNames]
  refine List.forall_mem_map.mpr fun n hn => (w.grounded_absoluteName scope n).mono fun u hu => ?_
  exact List.mem_filterMap.mpr ⟨n, hn, Option.mem_toList.mp hu⟩

theorem grounded_absoluteTys (w : World) (scope : Option Path) (ts : List Ty) :
    ∀ x ∈ (ts.map (w.absoluteTy scope)).flatMap Ty.names,
      w.Grounded (ts.flatMap (w.unresolvedIn scope)) x := by
  refine List.forall_mem_flatMap.mpr (List.forall_mem_map.mpr fun t ht x hx => ?_)
  exact (w.grounded_absoluteTy scope t x hx).flatMap ht

theorem grounded_overload (w : World) (scope : Option Path) (result : Option Ty)
    (hresult : ∀ t ∈ result, t.names = []) (s : Signature) :
    ∀ x ∈ (w.overload scope result s).names, w.Grounded (w.unresolvedInSignature scope result s) x := by
  refine List.forall_mem_flatMap.mpr fun t ht x hx => ?_
  rcases Overload.exists_of_mem_types_ofSignature ht with hgiven | ⟨u, hu, rfl⟩
  · rw [hresult t hgiven] at hx
    cases hx
  · exact (w.grounded_absoluteTy scope u x hx).flatMap hu

theorem grounded_overloads (w : World) (scope : Option Path) (result : Option Ty)
    (hresult : ∀ t ∈ result, t.names = []) (ss : List Signature) :
    ∀ x ∈ (ss.map (w.overload scope result)).flatMap Overload.names,
      w.Grounded (ss.flatMap (w.unresolvedInSignature scope result)) x := by
  refine List.forall_mem_flatMap.mpr (List.forall_mem_map.mpr fun s hs x hx => ?_)
  exact (w.grounded_overload scope result hresult s x hx).flatMap hs

end World

/-! ## What steps bring in -/

/-- The names in the types that the step itself brings in. -/
def Step.names : Step → List Nominal
  | .seed _ args | .mix _ args => args.flatMap Ty.names
  | .constrain t => t.names
  | .define d | .put d => d.names
  | .note _ | .drop _ => []

/-- What the steps bring in starts at the root or is noted by one of them, and all their notes are true. -/
structure Accounted (w : World) (ss : List Step) : Prop where
  names : ∀ s ∈ ss, ∀ x ∈ s.names, w.Grounded (ss.flatMap Step.noted) x
  notes : ∀ s ∈ ss, ∀ u ∈ s.noted, w.Confirms u

namespace Accounted

variable {w : World} {ss ts : List Step} {s : Step} {us vs : List Unresolved} {n : Nominal}

theorem append (h : Accounted w ss) (h' : Accounted w ts) : Accounted w (ss ++ ts) where
  names := by
    rw [List.flatMap_append]
    refine List.forall_mem_append.mpr ⟨fun s hs x hx => ?_, fun s hs x hx => ?_⟩
    · exact (h.names s hs x hx).mono (List.subset_append_left _ _)
    · exact (h'.names s hs x hx).mono (List.subset_append_right _ _)
  notes := List.forall_mem_append.mpr ⟨h.notes, h'.notes⟩

/-- Steps without notes that bring in names at the root only. -/
theorem of_absolute (h : ∀ s ∈ ss, s.noted = [] ∧ ∀ x ∈ s.names, w.Grounded [] x) : Accounted w ss where
  names s hs x hx := ((h s hs).2 x hx).mono (List.nil_subset _)
  notes s hs u hu := by
    rw [(h s hs).1] at hu
    cases hu

theorem nil : Accounted w [] := of_absolute (List.forall_mem_nil _)

theorem flatMap {f : α → List Step} {xs : List α} (h : ∀ x ∈ xs, Accounted w (f x)) :
    Accounted w (xs.flatMap f) := by
  induction xs with
  | nil => exact nil
  | cons x xs ih =>
    obtain ⟨hx, hxs⟩ := List.forall_mem_cons.mp h
    exact hx.append (ih hxs)

/-- A step between notes of what it brings in. -/
theorem noting (hs : s.noted = []) (hnames : ∀ x ∈ s.names, w.Grounded (us ++ vs) x)
    (hnotes : ∀ u ∈ us ++ vs, w.Confirms u) :
    Accounted w (us.map .note ++ [s] ++ vs.map .note) := by
  have hnoted : (us.map Step.note ++ [s] ++ vs.map Step.note).flatMap Step.noted = us ++ vs := by
    have single : ∀ us : List Unresolved, (us.map Step.note).flatMap Step.noted = us := by
      intro us
      rw [List.flatMap_map]
      exact List.flatMap_singleton' us
    rw [List.flatMap_append, List.flatMap_append, single, single, List.flatMap_singleton, hs,
      List.append_nil]
  obtain ⟨hus, hvs⟩ := List.forall_mem_append.mp hnotes
  refine ⟨?_, ?_⟩
  · rw [hnoted]
    simp only [List.forall_mem_append, List.forall_mem_singleton, List.forall_mem_map]
    exact ⟨⟨fun u _ => List.forall_mem_nil _, hnames⟩, fun u _ => List.forall_mem_nil _⟩
  · simp only [List.forall_mem_append, List.forall_mem_singleton, List.forall_mem_map, hs]
    exact ⟨⟨fun u hu => List.forall_mem_singleton.mpr (hus u hu), List.forall_mem_nil _⟩,
      fun u hu => List.forall_mem_singleton.mpr (hvs u hu)⟩

/-- A step after notes of what it brings in. -/
theorem concat (hs : s.noted = []) (hnames : ∀ x ∈ s.names, w.Grounded us x)
    (hnotes : ∀ u ∈ us, w.Confirms u) : Accounted w (us.map .note ++ [s]) := by
  have whole : Accounted w (us.map .note ++ [s] ++ [].map .note) := by
    refine noting hs ?_ ?_ <;> rw [List.append_nil]
    · exact hnames
    · exact hnotes
  rwa [List.map_nil, List.append_nil] at whole

theorem mixinSteps (w : World) (scope : Path) (facet : Facet) (a : Applied) :
    Accounted w (w.mixinSteps scope facet a) := by
  unfold World.mixinSteps World.noteTypes World.noteName
  rw [← List.map_append]
  refine concat rfl (fun x hx => ?_) ?_
  · exact (w.grounded_absoluteTys (some scope) a.args x hx).mono (List.subset_append_left _ _)
  · exact List.forall_mem_append.mpr
      ⟨List.forall_mem_flatMap.mpr fun t _ => w.confirms_unresolvedIn _ t, w.confirms_toList _ _⟩

theorem objectMixinSteps (w : World) (c : Constant) : Accounted w (w.objectMixinSteps c) := by
  refine flatMap fun member _ => ?_
  cases member with
  | method m => exact nil
  | included a | extended a => exact mixinSteps ..

theorem superclassSteps (w : World) (c : Constant) : Accounted w (w.superclassSteps c) := by
  unfold World.superclassSteps
  split
  · exact nil
  · next base _ =>
    refine noting rfl ?_ ?_
    · intro x hx
      exact (w.grounded_absoluteTys (some c.path) base.args x hx).mono (List.subset_append_right _ _)
    · exact List.forall_mem_append.mpr
        ⟨w.confirms_toList _ _, List.forall_mem_flatMap.mpr fun t _ => w.confirms_unresolvedIn _ t⟩

theorem superclassObjectSteps (w : World) (c : Constant) (k : Bool) :
    Accounted w (w.superclassObjectSteps c k) := by
  unfold World.superclassObjectSteps
  split
  · exact nil
  · exact concat rfl (List.forall_mem_nil _) (w.confirms_toList _ _)

theorem selfTypeSteps (w : World) (c : Constant) : Accounted w (w.selfTypeSteps c) := by
  unfold World.selfTypeSteps
  cases c.selfType? with
  | none => exact nil
  | some t =>
    change Accounted w (([t].flatMap (w.unresolvedIn (some c.path))).map .note ++ [_])
    rw [List.flatMap_singleton]
    exact concat rfl (w.grounded_absoluteTy (some c.path) t) (w.confirms_unresolvedIn _ t)

/-- Definitions whose overloads have been noted. -/
theorem noteSignatures {scope : Option Path} {result : Option Ty} {signatures : List Signature}
    (hresult : ∀ t ∈ result, t.names = []) (hs : s.noted = [])
    (hnames : s.names = (signatures.map (w.overload scope result)).flatMap Overload.names) :
    Accounted w (w.noteSignatures scope result signatures ++ [s]) := by
  refine concat hs ?_ (List.forall_mem_flatMap.mpr fun s _ => w.confirms_unresolvedInSignature _ _ s)
  rw [hnames]
  exact w.grounded_overloads scope result hresult signatures

theorem defineSteps (w : World) (scope : Path) (owner : Nominal) (m : MethodDecl) :
    Accounted w (w.defineSteps scope owner m) :=
  noteSignatures (fun _ h => nomatch h) rfl rfl

theorem classMethodSteps (w : World) (c : Constant) (k : Bool) (m : MethodDecl) :
    Accounted w (w.classMethodSteps c k m) := by
  unfold World.classMethodSteps
  split
  · exact defineSteps ..
  · split
    · refine noteSignatures (fun t h => ?_) rfl rfl
      obtain rfl := Option.some.inj h
      rfl
    · exact nil

/-- The steps of every plan are accounted for. -/
theorem of_plan {p : Plan} (h : w.plan n = .ok p) : Accounted w p.steps := by
  have define : ∀ scope owner (ms : List MethodDecl),
      Accounted w (ms.flatMap (w.defineSteps scope owner)) := fun scope owner ms =>
    flatMap fun m _ => defineSteps w scope owner m
  have seed : ∀ source args, args.flatMap Ty.names = [] → Accounted w [.seed source args] := by
    intro source args hargs
    refine of_absolute (List.forall_mem_singleton.mpr ⟨rfl, fun x hx => ?_⟩)
    rw [Step.names, hargs] at hx
    cases hx
  obtain ⟨facet, path⟩ := n
  cases facet with
  | instances =>
    obtain ⟨c, -, rfl⟩ := World.exists_of_map_eq_ok h
    refine ((((superclassSteps w c).append (selfTypeSteps w c)).append ?_).append (define ..)).append
      (define ..)
    exact flatMap fun a _ => mixinSteps ..
  | moduleObject =>
    obtain ⟨c, -, rfl⟩ := World.exists_of_map_eq_ok h
    exact (((selfTypeSteps w c).append (seed _ _ rfl)).append (objectMixinSteps w c)).append (define ..)
  | classObject k =>
    obtain ⟨c, -, rfl⟩ := World.exists_of_map_eq_ok h
    refine ((((seed _ _ rfl).append (superclassObjectSteps w c k)).append (objectMixinSteps w c)).append
      (flatMap fun m _ => classMethodSteps w c k m)).append ?_
    cases k with
    | true => exact nil
    | false => exact of_absolute (List.forall_mem_singleton.mpr ⟨rfl, List.forall_mem_nil _⟩)
  | protocol =>
    obtain ⟨q, -, rfl⟩ := World.exists_of_map_eq_ok h
    refine of_absolute (List.forall_mem_map.mpr fun m _ => ⟨rfl, fun x hx => ?_⟩)
    have hroot := w.grounded_overloads none none (fun _ h => nomatch h) m.signatures x hx
    have hnone : m.signatures.flatMap (w.unresolvedInSignature none none) = [] := by
      simp [World.unresolvedInSignature, World.unresolvedIn]
    rwa [hnone] at hroot

end Accounted

/-! ## What interfaces are made of -/

/-- All names of an assembled interface are brought in by the steps or come from a requested interface. -/
theorem Plan.forall_mem_names_assemble {P : Nominal → Prop} {p : Plan} {found : Nominal → Interface}
    (hsteps : ∀ s ∈ p.steps, ∀ x ∈ s.names, P x)
    (hfound : ∀ r ∈ p.requests, ∀ x ∈ (found r).names, P x) : ∀ x ∈ (p.assemble found).names, P x := by
  have applied : ∀ s ∈ p.steps, ∀ source args, s.request? = some source → s.names = args.flatMap Ty.names →
      ∀ x ∈ ((found source).instantiate args .id).names, P x := by
    intro s hs source args hrequest hnames
    refine Interface.names_instantiate (hfound source (List.mem_filterMap.mpr ⟨s, hs, hrequest⟩)) ?_
    rw [← List.forall_mem_flatMap, ← hnames]
    exact hsteps s hs
  rw [Interface.forall_mem_names_iff]
  constructor
  · rw [supers_assemble]
    refine List.forall_mem_flatMap.mpr fun s hs => ?_
    cases s with
    | mix source args => exact (Interface.forall_mem_names_iff.mp (applied _ hs source args rfl rfl)).1
    | constrain t => exact List.forall_mem_singleton.mpr (hsteps _ hs)
    | note | seed | define | put | drop => exact List.forall_mem_nil _
  · refine Step.all_foldl_apply (MethodTable.all_empty _) fun s hs => ?_
    cases s with
    | seed source args | mix source args =>
      exact (Interface.forall_mem_names_iff.mp (applied _ hs source args rfl rfl)).2
    | define d | put d => exact hsteps _ hs
    | note | constrain | drop => trivial

namespace World

variable {w : World} {n : Nominal} {i : Interface} {m : Memo w}

/-- In a complete memo the names of an interface are accounted for. -/
theorem grounded_names_of_done (hm : m.Complete) (h : m.entries.get? n = some (.done i)) :
    ∀ x ∈ i.names, w.Grounded m.unresolved x := by
  have hi := m.sound h
  induction hi with
  | @intro n p found hp hbuilt ih =>
    have hneeds := hm n _ p h hp
    have hnoted : p.steps.flatMap Step.noted ⊆ m.unresolved := fun u hu => by
      obtain ⟨s, hs, hu⟩ := List.mem_flatMap.mp hu
      exact (hneeds s hs).noted hu
    refine Plan.forall_mem_names_assemble (fun s hs x hx => ?_) fun r hr => ?_
    · exact ((Accounted.of_plan hp).names s hs x hx).mono hnoted
    · obtain ⟨s, hs, hrequest⟩ := List.mem_filterMap.mp hr
      obtain ⟨j, hj⟩ := (hneeds s hs).request r hrequest
      obtain rfl := (m.sound hj).unique (hbuilt r hr)
      exact ih r hr hj

/-! ## Sessions -/

theorem confirms_link (hm : ∀ u ∈ m.unresolved, w.Confirms u) :
    ∀ u ∈ (w.link n m).2.unresolved, w.Confirms u :=
  link_preserves (I := fun m => ∀ u ∈ m.unresolved, w.Confirms u)
    (fun hp s hs h => List.forall_mem_append.mpr ⟨h, (Accounted.of_plan hp).notes s hs⟩)
    (fun _ h => h) (fun _ h => h) (fun _ _ h _ => h) n m hm

theorem confirms_after (history : List Operation) : ∀ u ∈ (w.after history).unresolved, w.Confirms u := by
  induction history using List.reverseRecOn with
  | nil => exact List.forall_mem_nil _
  | append_singleton history op ih =>
    rw [after_concat]
    cases op with
    | interface scope n => exact confirms_link (List.forall_mem_append.mpr ⟨ih, w.confirms_toList scope n⟩)
    | mixin scope n =>
      exact confirms_link (List.forall_mem_append.mpr ⟨ih, w.confirms_toList (some scope) n⟩)
    | name scope n => exact List.forall_mem_append.mpr ⟨ih, w.confirms_toList scope n⟩
    | type scope t => exact List.forall_mem_append.mpr ⟨ih, w.confirms_unresolvedIn scope t⟩
    | params scope ps =>
      exact List.forall_mem_append.mpr
        ⟨ih, List.forall_mem_flatMap.mpr fun t _ => w.confirms_unresolvedIn scope t⟩
    | signature scope result s =>
      exact List.forall_mem_append.mpr ⟨ih, w.confirms_unresolvedInSignature scope result s⟩
    | method owner d =>
      exact List.forall_mem_append.mpr
        ⟨ih, List.forall_mem_flatMap.mpr fun s _ => w.confirms_unresolvedInSignature _ _ s⟩

/-- At any time in a session, every name in the types of an interface that is kept, at any depth, starts at
the root or has been noted as one that could not be resolved; and every such note tells of a look-up that
fails in its scope for the cause that it gives. -/
theorem names_after (w : World) (history : List Operation) :
    (∀ n i, (w.after history).entries.get? n = some (.done i) → ∀ x ∈ i.names,
        x.path.absolute = true ∨ ∃ u ∈ (w.after history).unresolved, u.name = x) ∧
      ∀ u ∈ (w.after history).unresolved, w.locate u.scope u.name = .error u.cause := by
  refine ⟨fun n i hi x hx => ?_, confirms_after history⟩
  refine (grounded_names_of_done (complete_after history) hi x hx).imp_right ?_
  rintro ⟨scope, cause, -, hnoted⟩
  exact ⟨_, hnoted, rfl⟩

/-- A class over another one, which is applied to a name that nothing bears. -/
def lenient : World where
  decls := (Declarations.empty.addAll
    [.constant ⟨⟨["BasicObject"], true⟩, [], [], .nowhere, .cls none⟩,
     .constant ⟨⟨["Object"], true⟩, [], [], .nowhere, .cls (some ⟨⟨["BasicObject"], true⟩, []⟩)⟩,
     .constant ⟨⟨["Box"], true⟩, ["a"],
      [.method ⟨"open", .instances, [⟨[], [], none, .var "a", .nowhere⟩], []⟩], .nowhere, .cls none⟩,
     .constant ⟨⟨["Parcel"], true⟩, [], [], .nowhere,
      .cls (some ⟨⟨["Box"], false⟩, [.ofPath ⟨["Label"], false⟩ []]⟩)⟩]).1
  roots := .standard

/-- What the inherited method returns has no declaration, and a note says so. -/
theorem names_after_lenient :
    let m := lenient.after [.interface none ⟨.instances, ⟨["Parcel"], true⟩⟩]
    ∃ i, m.entries.get? ⟨.instances, ⟨["Parcel"], true⟩⟩ = some (.done i) ∧
      ⟨.instances, ⟨["Label"], false⟩⟩ ∈ i.names ∧
      ∃ u ∈ m.unresolved, u.name = ⟨.instances, ⟨["Label"], false⟩⟩ ∧
        lenient.locate u.scope u.name = .error u.cause := by
  intro m
  have hnames : ((m.entries.get? ⟨.instances, ⟨["Parcel"], true⟩⟩).bind fun
      | .done i => some i.names
      | .inProgress => none) = some [⟨.instances, ⟨["Label"], false⟩⟩] := by
    decide +kernel
  obtain ⟨entry, hentry, hnames⟩ := Option.bind_eq_some_iff.mp hnames
  cases entry with
  | inProgress => cases hnames
  | done i =>
    have hlabel : ⟨.instances, ⟨["Label"], false⟩⟩ ∈ i.names := by
      rw [Option.some.inj hnames]
      exact List.mem_singleton_self _
    obtain ⟨hobserved, hnotes⟩ := names_after lenient [.interface none ⟨.instances, ⟨["Parcel"], true⟩⟩]
    obtain ⟨u, hu, hname⟩ := (hobserved _ i hentry _ hlabel).resolve_left Bool.false_ne_true
    exact ⟨i, hentry, hlabel, u, hu, hname, hnotes u hu⟩

end World

end MixinTypes
