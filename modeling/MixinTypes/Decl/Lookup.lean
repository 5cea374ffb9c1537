import MixinTypes.Decl.Collection

/-!
# Looking up declarations

A relative path is looked up in its scope, from the innermost namespace outward; an absolute path,
or one without a scope, is looked up at the root. The first constant found counts, whatever its
kind.
-/

namespace MixinTypes.Declarations

/-- The constant that a path denotes in a scope. -/
def resolve? (d : Declarations) (scope : Option Path) (p : Path) : Option Constant :=
  match scope with
  | none => d.constantAt? p.toAbsolute
  | some s =>
    if p.absolute then d.constantAt? p
    else s.toAbsolute.enclosing.findSome? fun ns => d.constantAt? (ns.join p)

/-- The class or module that a path denotes. -/
def find (d : Declarations) (scope : Option Path) (p : Path) : Except LookupError Constant :=
  match d.resolve? scope p with
  | none => .error (.notFound p)
  | some c => .ok c

/-- The constant that a path denotes, if it is of this kind. -/
def findKind (d : Declarations) (kind : ConstantKind) (scope : Option Path) (p : Path) :
    Except LookupError Constant :=
  match d.find scope p with
  | .error e => .error e
  | .ok c => if c.body.kind = kind then .ok c else .error (.kindMismatch c.path kind)

/-- The protocol at the absolute form of a path. -/
def findProtocol (d : Declarations) (p : Path) : Except LookupError Protocol :=
  match d.protocolAt? p.toAbsolute with
  | none => .error (.notFound p)
  | some q => .ok q

theorem find_eq_ok_iff {d : Declarations} {scope : Option Path} {p : Path} {c : Constant} :
    d.find scope p = .ok c ↔ d.resolve? scope p = some c := by
  unfold find
  cases d.resolve? scope p with
  | none => exact ⟨nofun, nofun⟩
  | some c' => rw [Except.ok.injEq, Option.some.injEq]

theorem find_eq_error_iff {d : Declarations} {scope : Option Path} {p : Path} {e : LookupError} :
    d.find scope p = .error e ↔ e = .notFound p ∧ d.resolve? scope p = none := by
  unfold find
  cases d.resolve? scope p with
  | none => rw [Except.error.injEq, eq_comm, and_iff_left rfl]
  | some c => exact ⟨nofun, fun h => nomatch h.2⟩

theorem mem_of_resolve? {d : Declarations} {scope : Option Path} {p : Path} {c : Constant}
    (h : d.resolve? scope p = some c) : c ∈ d.constants := by
  unfold resolve? at h
  split at h
  · exact mem_of_constantAt? h
  · split at h
    · exact mem_of_constantAt? h
    · obtain ⟨q, _, hq⟩ := List.exists_of_findSome?_eq_some h
      exact mem_of_constantAt? hq

/-- What a scope does not find is not at the root either. -/
theorem constantAt?_of_resolve?_eq_none {d : Declarations} {scope p : Path}
    (h : d.resolve? (some scope) p = none) : d.constantAt? p.toAbsolute = none := by
  simp only [resolve?] at h
  split at h
  · next hp => rwa [Path.toAbsolute_eq_self hp]
  · rw [List.findSome?_eq_none_iff] at h
    have hroot := h .root (Path.root_mem_enclosing rfl)
    rwa [Path.root_join] at hroot

theorem find_none_of_find_eq_error {d : Declarations} {scope p : Path} {e : LookupError}
    (h : d.find (some scope) p = .error e) : d.find none p = .error (.notFound p) :=
  find_eq_error_iff.mpr ⟨rfl, constantAt?_of_resolve?_eq_none (find_eq_error_iff.mp h).2⟩

theorem mem_of_find {d : Declarations} {scope : Option Path} {p : Path} {c : Constant}
    (h : d.find scope p = .ok c) : c ∈ d.constants :=
  mem_of_resolve? (find_eq_ok_iff.mp h)

theorem find_of_findKind {d : Declarations} {kind : ConstantKind} {scope : Option Path} {p : Path}
    {c : Constant} (h : d.findKind kind scope p = .ok c) :
    d.find scope p = .ok c ∧ c.body.kind = kind := by
  unfold findKind at h
  split at h
  · exact absurd h (by simp)
  · next hc =>
    split at h
    · next hk => obtain rfl := Except.ok.inj h; exact ⟨hc, hk⟩
    · exact absurd h (by simp)

/-- A path that denotes a constant leads to it when it is of the kind that is looked for. -/
theorem findKind_of_resolve? {d : Declarations} {scope : Option Path} {p : Path} {c : Constant}
    (h : d.resolve? scope p = some c) (kind : ConstantKind) :
    d.findKind kind scope p =
      if c.body.kind = kind then .ok c else .error (.kindMismatch c.path kind) := by
  unfold findKind
  rw [find_eq_ok_iff.mpr h]

theorem findKind_eq_ok_iff {d : Declarations} {kind : ConstantKind} {scope : Option Path} {p : Path}
    {c : Constant} :
    d.findKind kind scope p = .ok c ↔ d.find scope p = .ok c ∧ c.body.kind = kind := by
  refine ⟨find_of_findKind, fun ⟨hfind, hkind⟩ => ?_⟩
  rw [findKind_of_resolve? (find_eq_ok_iff.mp hfind), if_pos hkind]

/-- A constant of the wrong kind, unless nothing is found at all. -/
theorem findKind_eq_error_iff {d : Declarations} {kind : ConstantKind} {scope : Option Path} {p : Path}
    {e : LookupError} :
    d.findKind kind scope p = .error e ↔ d.find scope p = .error e ∨
      ∃ c, d.find scope p = .ok c ∧ c.body.kind ≠ kind ∧ e = .kindMismatch c.path kind := by
  cases hfind : d.find scope p with
  | error e' =>
    have herror : d.findKind kind scope p = .error e' := by
      unfold findKind
      rw [hfind]
    rw [herror]
    exact ⟨.inl, fun h => h.resolve_right nofun⟩
  | ok c =>
    rw [findKind_of_resolve? (find_eq_ok_iff.mp hfind)]
    by_cases hkind : c.body.kind = kind
    · rw [if_pos hkind]
      refine ⟨nofun, ?_⟩
      rintro (h | ⟨c', h, hkind', -⟩)
      · cases h
      · exact absurd (Except.ok.inj h ▸ hkind) hkind'
    · rw [if_neg hkind]
      constructor
      · exact fun h => .inr ⟨c, rfl, hkind, (Except.error.inj h).symm⟩
      · rintro (h | ⟨c', h, -, rfl⟩)
        · cases h
        · rw [Except.ok.inj h]

/-- When the kind is not found, either nothing is or what is found has another kind. -/
theorem find_or_kindMismatch_of_findKind {d : Declarations} {kind : ConstantKind}
    {scope : Option Path} {p : Path} {e : LookupError} (h : d.findKind kind scope p = .error e) :
    d.find scope p = .error e ∨ ∃ q, e = .kindMismatch q kind :=
  (findKind_eq_error_iff.mp h).imp_right fun ⟨c, _, _, he⟩ => ⟨c.path, he⟩

/-- Without a scope only the constant at the absolute form of the path counts. -/
theorem path_of_find_none {d : Declarations} {p : Path} {c : Constant}
    (h : d.find none p = .ok c) : c.path = p.toAbsolute :=
  path_of_constantAt? (find_eq_ok_iff.mp h)

/-- An absolute path denotes the same in every scope. -/
theorem resolve?_of_absolute {d : Declarations} {p : Path} (hp : p.absolute = true)
    (scope : Option Path) : d.resolve? scope p = d.constantAt? p := by
  cases scope with
  | none => rw [resolve?, Path.toAbsolute_eq_self hp]
  | some s => exact if_pos hp

/-- An absolute path, or any path without a scope, is looked up at the root. -/
theorem resolve?_of_absolute_or_none {d : Declarations} {scope : Option Path} {p : Path}
    (h : p.absolute = true ∨ scope = none) : d.resolve? scope p = d.constantAt? p.toAbsolute := by
  rcases h with hp | rfl
  · rw [resolve?_of_absolute hp, Path.toAbsolute_eq_self hp]
  · rfl

theorem path_of_find_of_absolute {d : Declarations} {scope : Option Path} {p : Path} {c : Constant}
    (hp : p.absolute = true) (h : d.find scope p = .ok c) : c.path = p := by
  rw [find_eq_ok_iff, resolve?_of_absolute hp] at h
  exact path_of_constantAt? h

/-- A constant that a path denotes is the one at its own path. -/
theorem constantAt?_of_resolve? {d : Declarations} {scope : Option Path} {p : Path} {c : Constant}
    (h : d.resolve? scope p = some c) : d.constantAt? c.path = some c := by
  have here : ∀ {q : Path}, d.constantAt? q = some c → d.constantAt? c.path = some c := by
    intro q hq
    rwa [path_of_constantAt? hq]
  unfold resolve? at h
  split at h
  · exact here h
  · split at h
    · exact here h
    · obtain ⟨q, -, hq⟩ := List.exists_of_findSome?_eq_some h
      exact here hq

/-- The path of a constant leads to it from everywhere. -/
theorem find_path_of_constantAt? {d : Declarations} {c : Constant} (h : d.constantAt? c.path = some c)
    (scope : Option Path) : d.find scope c.path = .ok c := by
  have habs := d.constants_absolute c (mem_of_constantAt? h)
  rw [find_eq_ok_iff, resolve?_of_absolute habs, h]

theorem constantAt?_of_find_none {d : Declarations} {p : Path} {c : Constant}
    (h : d.find none p = .ok c) : d.constantAt? c.path = some c :=
  constantAt?_of_resolve? (find_eq_ok_iff.mp h)

/-- Without a scope, paths with one absolute form denote the same. -/
theorem find_none_of_toAbsolute_eq {d : Declarations} {p q : Path} {c : Constant}
    (h : q.toAbsolute = p.toAbsolute) (hp : d.find none p = .ok c) : d.find none q = .ok c := by
  rw [find_eq_ok_iff] at hp ⊢
  rwa [resolve?, h]

theorem findKind_none_of_toAbsolute_eq {d : Declarations} {kind : ConstantKind} {p q : Path}
    {c : Constant} (h : q.toAbsolute = p.toAbsolute) (hp : d.findKind kind none p = .ok c) :
    d.findKind kind none q = .ok c := by
  obtain ⟨hfind, hkind⟩ := find_of_findKind hp
  exact findKind_eq_ok_iff.mpr ⟨find_none_of_toAbsolute_eq h hfind, hkind⟩

theorem findProtocol_of_toAbsolute_eq {d : Declarations} {p q : Path} {r : Protocol}
    (h : q.toAbsolute = p.toAbsolute) (hp : d.findProtocol p = .ok r) : d.findProtocol q = .ok r := by
  unfold findProtocol at hp ⊢
  rw [h]
  split at hp
  · exact absurd hp (by simp)
  · exact hp

theorem protocolAt?_of_findProtocol {d : Declarations} {p : Path} {q : Protocol}
    (h : d.findProtocol p = .ok q) : d.protocolAt? p.toAbsolute = some q := by
  unfold findProtocol at h
  split at h
  · exact absurd h (by simp)
  · next hq => obtain rfl := Except.ok.inj h; exact hq

end MixinTypes.Declarations
