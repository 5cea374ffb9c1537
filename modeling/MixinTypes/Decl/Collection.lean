import MixinTypes.Decl.Basic

/-!
# Collections of declarations

A collection holds each constant and each protocol under its absolute path, at most one of each per
path, and any number of extensions. Adding a second constant, or a second protocol, with a path that
is taken fails and changes nothing. Extensions never clash with anything.

What is looked up after an addition is what was there, then what is new (`constantAt?_add`,
`protocolAt?_add`, `extensionsOf_add`).
-/

namespace MixinTypes

/-- Why a name does not lead to a declaration. -/
inductive LookupError where
  /-- Nothing is declared under the name, given here as written. -/
  | notFound (path : Path)
  /-- The declaration found is not of the kind `expected`. -/
  | kindMismatch (path : Path) (expected : ConstantKind)
  /-- The path is taken. -/
  | duplicate (path : Path)
deriving DecidableEq

namespace LookupError

def render : LookupError → String
  | .notFound p => s!"Unknown class or module `{p}`"
  | .kindMismatch p .cls => s!"`{p}` is not a class"
  | .kindMismatch p .mod => s!"`{p}` is not a module"
  | .duplicate p => s!"`{p}` is declared more than once"

instance : ToString LookupError := ⟨render⟩

end LookupError

/-- A collection of declarations. -/
structure Declarations where
  constants : List Constant
  protocols : List Protocol
  extensions : List Extension
  constants_absolute : ∀ c ∈ constants, c.path.absolute = true
  constants_nodup : (constants.map Constant.path).Nodup
  protocols_absolute : ∀ p ∈ protocols, p.path.absolute = true
  protocols_nodup : (protocols.map Protocol.path).Nodup
  extensions_absolute : ∀ e ∈ extensions, e.target.absolute = true

namespace Declarations

/-- The constant declared at exactly this path. -/
def constantAt? (d : Declarations) (p : Path) : Option Constant :=
  d.constants.find? fun c => c.path = p

/-- The protocol declared at exactly this path. -/
def protocolAt? (d : Declarations) (p : Path) : Option Protocol :=
  d.protocols.find? fun q => q.path = p

/-- The extensions of the constant at `p`, in the order they were added. -/
def extensionsOf (d : Declarations) (p : Path) : List Extension :=
  d.extensions.filter fun e => e.target = p.toAbsolute

/-- Nothing declared. -/
def empty : Declarations where
  constants := []
  protocols := []
  extensions := []
  constants_absolute := by simp
  constants_nodup := by simp
  protocols_absolute := by simp
  protocols_nodup := by simp
  extensions_absolute := by simp

/-- Where keys are not repeated, looking one up finds the member that has it. -/
theorem find?_eq_some_iff_of_nodup [DecidableEq κ] {f : α → κ} {xs : List α} {k : κ}
    (hn : (xs.map f).Nodup) {x : α} : xs.find? (fun x => f x = k) = some x ↔ x ∈ xs ∧ f x = k := by
  induction xs with
  | nil => simp
  | cons y ys ih =>
    obtain ⟨hfresh, hn⟩ := List.nodup_cons.mp hn
    by_cases hy : f y = k
    · rw [List.find?_cons_of_pos (by simpa using hy), Option.some.injEq, List.mem_cons]
      constructor
      · rintro rfl
        exact ⟨.inl rfl, hy⟩
      · rintro ⟨rfl | hx, hk⟩
        · rfl
        · exact absurd (List.mem_map.mpr ⟨x, hx, hk.trans hy.symm⟩) hfresh
    · rw [List.find?_cons_of_neg (by simpa using hy), ih hn, List.mem_cons]
      refine and_congr_left fun hk => (or_iff_right ?_).symm
      rintro rfl
      exact hy hk

theorem nodup_map_concat {f : α → Path} {xs : List α} {x : α} (h : (xs.map f).Nodup)
    (hx : xs.find? (fun y => f y = f x) = none) : ((xs ++ [x]).map f).Nodup := by
  rw [List.map_append, List.nodup_append]
  refine ⟨h, by simp, ?_⟩
  intro a ha b hb e
  simp only [List.map_cons, List.map_nil, List.mem_singleton] at hb
  obtain ⟨y, hy, rfl⟩ := List.mem_map.mp ha
  have := List.find?_eq_none.mp hx y hy
  exact this (by simpa using e.trans hb)

theorem forall_mem_concat {p : α → Prop} {xs : List α} {x : α} (h : ∀ y ∈ xs, p y) (hx : p x) :
    ∀ y ∈ xs ++ [x], p y := by
  intro y hy
  rcases List.mem_append.mp hy with hy | hy
  · exact h y hy
  · obtain rfl := List.mem_singleton.mp hy; exact hx

/-- Declare a constant at the absolute form of its path. -/
def addConstant (d : Declarations) (c : Constant) : Except LookupError Declarations :=
  if h : d.constantAt? c.atRoot.path = none then
    .ok { d with
      constants := d.constants ++ [c.atRoot]
      constants_absolute := forall_mem_concat d.constants_absolute rfl
      constants_nodup := nodup_map_concat d.constants_nodup h }
  else .error (.duplicate c.atRoot.path)

/-- Declare a protocol at the absolute form of its path. -/
def addProtocol (d : Declarations) (p : Protocol) : Except LookupError Declarations :=
  if h : d.protocolAt? p.atRoot.path = none then
    .ok { d with
      protocols := d.protocols ++ [p.atRoot]
      protocols_absolute := forall_mem_concat d.protocols_absolute rfl
      protocols_nodup := nodup_map_concat d.protocols_nodup h }
  else .error (.duplicate p.atRoot.path)

/-- Declare an extension of the constant at the absolute form of its target. -/
def addExtension (d : Declarations) (e : Extension) : Declarations :=
  { d with
    extensions := d.extensions ++ [e.atRoot]
    extensions_absolute := forall_mem_concat d.extensions_absolute rfl }

/-- Declare one thing. -/
def add (d : Declarations) : Declaration → Except LookupError Declarations
  | .constant c => d.addConstant c
  | .protocol p => d.addProtocol p
  | .extension e => .ok (d.addExtension e)

/-- Declare things one after another up to the first that fails; what was declared before it
stays. -/
def addAll (d : Declarations) : List Declaration → Declarations × Except LookupError Unit
  | [] => (d, .ok ())
  | x :: xs =>
    match d.add x with
    | .error e => (d, .error e)
    | .ok d => d.addAll xs

/-! ## What adding changes -/

theorem path_of_constantAt? {d : Declarations} {p : Path} {c : Constant}
    (h : d.constantAt? p = some c) : c.path = p := by
  simpa using List.find?_some h

theorem mem_of_constantAt? {d : Declarations} {p : Path} {c : Constant}
    (h : d.constantAt? p = some c) : c ∈ d.constants :=
  List.mem_of_find?_eq_some h

theorem constantAt?_eq_some_iff {d : Declarations} {p : Path} {c : Constant} :
    d.constantAt? p = some c ↔ c ∈ d.constants ∧ c.path = p :=
  find?_eq_some_iff_of_nodup d.constants_nodup

theorem path_of_protocolAt? {d : Declarations} {p : Path} {q : Protocol}
    (h : d.protocolAt? p = some q) : q.path = p := by
  simpa using List.find?_some h

theorem mem_of_protocolAt? {d : Declarations} {p : Path} {q : Protocol}
    (h : d.protocolAt? p = some q) : q ∈ d.protocols :=
  List.mem_of_find?_eq_some h

theorem addConstant_eq_error_iff {d : Declarations} {c : Constant} {e : LookupError} :
    d.addConstant c = .error e ↔
      d.constantAt? c.atRoot.path ≠ none ∧ e = .duplicate c.atRoot.path := by
  unfold addConstant
  split <;> simp_all [eq_comm]

theorem addProtocol_eq_error_iff {d : Declarations} {p : Protocol} {e : LookupError} :
    d.addProtocol p = .error e ↔
      d.protocolAt? p.atRoot.path ≠ none ∧ e = .duplicate p.atRoot.path := by
  unfold addProtocol
  split <;> simp_all [eq_comm]

section Add

variable {d d' : Declarations} {x : Declaration}

/-- Every declaration is put at the end of its own list. -/
theorem eq_of_add (h : d.add x = .ok d') :
    d'.constants = d.constants ++ x.constant?.toList.map Constant.atRoot ∧
      d'.protocols = d.protocols ++ x.protocol?.toList.map Protocol.atRoot ∧
      d'.extensions = d.extensions ++ x.extension?.toList.map Extension.atRoot := by
  cases x with
  | constant c =>
    unfold add addConstant at h
    dsimp only at h
    split at h
    · obtain rfl := Except.ok.inj h
      exact ⟨rfl, (List.append_nil _).symm, (List.append_nil _).symm⟩
    · cases h
  | protocol p =>
    unfold add addProtocol at h
    dsimp only at h
    split at h
    · obtain rfl := Except.ok.inj h
      exact ⟨(List.append_nil _).symm, rfl, (List.append_nil _).symm⟩
    · cases h
  | extension e =>
    obtain rfl := Except.ok.inj h
    exact ⟨(List.append_nil _).symm, (List.append_nil _).symm, rfl⟩

theorem find?_toList {o : Option α} {p : α → Bool} : o.toList.find? p = o.filter p := by
  cases o with
  | none => rfl
  | some a => simp [Option.filter]

theorem constantAt?_add (h : d.add x = .ok d') (p : Path) :
    d'.constantAt? p = (d.constantAt? p).or
      ((x.constant?.filter fun c => c.path.toAbsolute = p).map Constant.atRoot) := by
  unfold constantAt?
  rw [(eq_of_add h).1, List.find?_append, List.find?_map, find?_toList]
  rfl

theorem protocolAt?_add (h : d.add x = .ok d') (p : Path) :
    d'.protocolAt? p = (d.protocolAt? p).or
      ((x.protocol?.filter fun q => q.path.toAbsolute = p).map Protocol.atRoot) := by
  unfold protocolAt?
  rw [(eq_of_add h).2.1, List.find?_append, List.find?_map, find?_toList]
  rfl

theorem extensionsOf_add (h : d.add x = .ok d') (p : Path) :
    d'.extensionsOf p = d.extensionsOf p ++
      (x.extension?.toList.filter fun e => e.target.toAbsolute = p.toAbsolute).map Extension.atRoot := by
  unfold extensionsOf
  rw [(eq_of_add h).2.2, List.filter_append, List.filter_map]
  rfl

end Add

end Declarations

end MixinTypes
