import MixinTypes.Decl.Lookup
import MixinTypes.Decl.Session
import MixinTypes.Proofs.Declaring.Order

/-!
# First come, first declared

Which declarations are tried in a session, and in what order, follows from the calls alone: a call with
several declarations stops at the first that clashes with what was tried before. The list of all that was
tried says everything about the collection, although some of it was turned down.

1. A declaration is turned down when it clashes (`Records.add_eq_error_iff`). Whether or not it is, the list
   with the declaration at its end still records the collection (`Records.of_clashes`, `Records.of_add`).
2. So the collection of a session is recorded by its log (`records_after`), and what is found under an
   absolute path is the first constant or protocol that was tried there, and every extension
   (`lookups_after`).
-/

namespace MixinTypes

namespace Declaration

/-- The path that the declaration gives. -/
def path : Declaration → Path
  | .constant c => c.path
  | .protocol p => p.path
  | .extension e => e.target

/-- The path is taken by an earlier constant or, for a protocol, by an earlier protocol. Extensions take no
paths and need none. -/
def Clashes (x : Declaration) (past : List Declaration) : Prop :=
  match x with
  | .constant c => ∃ c' ∈ past.filterMap constant?, c'.path.toAbsolute = c.path.toAbsolute
  | .protocol p => ∃ p' ∈ past.filterMap protocol?, p'.path.toAbsolute = p.path.toAbsolute
  | .extension _ => False

instance (x : Declaration) (past : List Declaration) : Decidable (x.Clashes past) := by
  unfold Clashes
  cases x <;> exact inferInstance

end Declaration

namespace Declarations

/-! ## Logs -/

/-- The declarations among `xs` that are tried after those in `past`: all up to the first that clashes. -/
def tried (past : List Declaration) : List Declaration → List Declaration
  | [] => []
  | x :: xs => if x.Clashes past then [x] else x :: tried (past ++ [x]) xs

/-- What has been tried once a call is over. -/
def logged (past : List Declaration) : Addition → List Declaration
  | .one x => past ++ [x]
  | .several xs => past ++ tried past xs

/-- All that is tried in a session. -/
def log (calls : List Addition) : List Declaration := calls.foldl logged []

theorem log_concat (calls : List Addition) (a : Addition) :
    log (calls ++ [a]) = logged (log calls) a := by
  unfold log
  rw [List.foldl_append, List.foldl_cons, List.foldl_nil]

/-- The first of several things whose path is `p` once both are taken from the root. -/
def firstAt? {α : Type} (path : α → Path) (xs : List α) (p : Path) : Option α :=
  xs.find? fun x => (path x).toAbsolute = p.toAbsolute

/-- The first constant in a log with this absolute path. -/
def firstConstant? (log : List Declaration) (p : Path) : Option Constant :=
  firstAt? Constant.path (log.filterMap Declaration.constant?) p

/-- The first protocol in a log with this absolute path. -/
def firstProtocol? (log : List Declaration) (p : Path) : Option Protocol :=
  firstAt? Protocol.path (log.filterMap Declaration.protocol?) p

/-- What is found in the collection under an absolute path is what the log has there first or, of
extensions, all that it has. -/
structure Records (d : Declarations) (log : List Declaration) : Prop where
  constantAt? : ∀ p, d.constantAt? p.toAbsolute = (firstConstant? log p).map Constant.atRoot
  protocolAt? : ∀ p, d.protocolAt? p.toAbsolute = (firstProtocol? log p).map Protocol.atRoot
  extensionsOf : ∀ p, d.extensionsOf p = (extensionsIn log p).map Extension.atRoot

section First

variable {α : Type} {path : α → Path} {xs ys : List α} {p : Path}

theorem firstAt?_append : firstAt? path (xs ++ ys) p = (firstAt? path xs p).or (firstAt? path ys p) :=
  List.find?_append

theorem isSome_firstAt?_iff :
    (firstAt? path xs p).isSome = true ↔ ∃ x ∈ xs, (path x).toAbsolute = p.toAbsolute := by
  unfold firstAt?
  rw [List.find?_isSome]
  simp only [decide_eq_true_eq]

/-- What comes second at every path changes nothing. -/
theorem firstAt?_append_of_taken
    (h : ∀ y ∈ ys, ∃ x ∈ xs, (path x).toAbsolute = (path y).toAbsolute) :
    firstAt? path (xs ++ ys) p = firstAt? path xs p := by
  rw [firstAt?_append]
  by_cases hp : (firstAt? path xs p).isSome = true
  · exact Option.or_of_isSome hp
  · have hys : firstAt? path ys p = none := by
      rw [← Option.not_isSome_iff_eq_none, isSome_firstAt?_iff]
      rintro ⟨y, hy, hyp⟩
      obtain ⟨x, hx, hxy⟩ := h y hy
      exact hp (isSome_firstAt?_iff.mpr ⟨x, hx, hxy.trans hyp⟩)
    rw [hys, Option.or_none]

end First

section Concat

variable {past : List Declaration} {x : Declaration} {p : Path}

theorem filterMap_concat {f : Declaration → Option α} :
    (past ++ [x]).filterMap f = past.filterMap f ++ (f x).toList := by
  rw [List.filterMap_append]
  cases hx : f x <;> simp [hx]

theorem firstAt?_filterMap_concat {path : α → Path} {f : Declaration → Option α} :
    firstAt? path ((past ++ [x]).filterMap f) p = (firstAt? path (past.filterMap f) p).or
      ((f x).filter fun y => (path y).toAbsolute = p.toAbsolute) := by
  rw [filterMap_concat, firstAt?_append]
  exact congrArg _ find?_toList

theorem firstConstant?_concat : firstConstant? (past ++ [x]) p =
    (firstConstant? past p).or (x.constant?.filter fun c => c.path.toAbsolute = p.toAbsolute) :=
  firstAt?_filterMap_concat

theorem firstProtocol?_concat : firstProtocol? (past ++ [x]) p =
    (firstProtocol? past p).or (x.protocol?.filter fun q => q.path.toAbsolute = p.toAbsolute) :=
  firstAt?_filterMap_concat

theorem extensionsIn_concat : extensionsIn (past ++ [x]) p =
    extensionsIn past p ++ x.extension?.toList.filter fun e => e.target.toAbsolute = p.toAbsolute := by
  unfold extensionsIn
  rw [filterMap_concat, List.filter_append]

end Concat

theorem records_empty : empty.Records [] :=
  ⟨fun _ => rfl, fun _ => rfl, fun _ => rfl⟩

/-! ## One declaration -/

namespace Records

variable {d d' : Declarations} {past : List Declaration} {x : Declaration} {e : LookupError}

/-- Adding fails for what clashes, and says which path is taken. -/
theorem add_eq_error_iff (h : d.Records past) :
    d.add x = .error e ↔ x.Clashes past ∧ e = .duplicate x.path.toAbsolute := by
  cases x with
  | constant c =>
    refine addConstant_eq_error_iff.trans (and_congr_left' ?_)
    have hat : d.constantAt? c.atRoot.path = (firstConstant? past c.path).map Constant.atRoot :=
      h.constantAt? c.path
    rw [hat, Option.ne_none_iff_isSome, Option.isSome_map]
    exact isSome_firstAt?_iff
  | protocol p =>
    refine addProtocol_eq_error_iff.trans (and_congr_left' ?_)
    have hat : d.protocolAt? p.atRoot.path = (firstProtocol? past p.path).map Protocol.atRoot :=
      h.protocolAt? p.path
    rw [hat, Option.ne_none_iff_isSome, Option.isSome_map]
    exact isSome_firstAt?_iff
  | extension => exact ⟨fun hadd => (nomatch hadd), fun hx => hx.1.elim⟩

/-- What clashes is not found, since something else was there first. -/
theorem of_clashes (h : d.Records past) (hx : x.Clashes past) : d.Records (past ++ [x]) := by
  refine ⟨fun p => (h.constantAt? p).trans (congrArg _ ?_),
    fun p => (h.protocolAt? p).trans (congrArg _ ?_), fun p => (h.extensionsOf p).trans (congrArg _ ?_)⟩
  · unfold firstConstant?
    rw [filterMap_concat, firstAt?_append_of_taken]
    cases x with
    | constant c => exact List.forall_mem_singleton.mpr hx
    | protocol | extension => exact List.forall_mem_nil _
  · unfold firstProtocol?
    rw [filterMap_concat, firstAt?_append_of_taken]
    cases x with
    | protocol p => exact List.forall_mem_singleton.mpr hx
    | constant | extension => exact List.forall_mem_nil _
  · rw [extensionsIn_concat]
    cases x with
    | extension => exact hx.elim
    | constant | protocol => exact (List.append_nil _).symm

/-- What has been added is found unless something else was there first. -/
theorem of_add (h : d.Records past) (hx : d.add x = .ok d') : d'.Records (past ++ [x]) where
  constantAt? p := by
    rw [constantAt?_add hx, h.constantAt?, firstConstant?_concat, Option.map_or]
  protocolAt? p := by
    rw [protocolAt?_add hx, h.protocolAt?, firstProtocol?_concat, Option.map_or]
  extensionsOf p := by
    rw [extensionsOf_add hx, h.extensionsOf, extensionsIn_concat, List.map_append]

end Records

/-! ## Calls -/

variable {d : Declarations} {past : List Declaration}

/-- After several declarations, those that were tried are in the log. -/
theorem Records.addAll (h : d.Records past) (xs : List Declaration) :
    (d.addAll xs).1.Records (past ++ tried past xs) := by
  induction xs generalizing d past with
  | nil =>
    rw [tried, List.append_nil]
    exact h
  | cons x xs ih =>
    rw [tried, Declarations.addAll]
    cases hadd : d.add x with
    | error e =>
      have hx := (h.add_eq_error_iff.mp hadd).1
      rw [if_pos hx]
      exact h.of_clashes hx
    | ok d' =>
      have hx : ¬ x.Clashes past := fun hx => by
        rw [h.add_eq_error_iff.mpr ⟨hx, rfl⟩] at hadd
        cases hadd
      rw [if_neg hx, List.append_cons]
      exact ih (h.of_add hadd)

theorem Records.declare (h : d.Records past) (a : Addition) :
    (d.declare a).1.Records (logged past a) := by
  cases a with
  | several xs => exact h.addAll xs
  | one x =>
    cases hadd : d.add x with
    | error e =>
      rw [declare_one_of_add_eq_error hadd]
      exact h.of_clashes (h.add_eq_error_iff.mp hadd).1
    | ok d' =>
      rw [declare_one_of_add hadd]
      exact h.of_add hadd

/-- The log of a session records its collection, by induction on the calls. -/
theorem records_after (calls : List Addition) : (after calls).Records (log calls) := by
  induction calls using List.reverseRecOn with
  | nil => exact records_empty
  | append_singleton calls a ih =>
    rw [after_concat, log_concat]
    exact ih.declare a

/-! ## Look-ups -/

/-- Away from every scope, a path denotes the constant that was tried there first. -/
theorem Records.find_eq (h : d.Records past) {scope : Option Path} {p : Path}
    (hp : p.absolute = true ∨ scope = none) :
    d.find scope p = ((firstConstant? past p).map Constant.atRoot).elim (.error (.notFound p)) .ok := by
  have hresolve : d.resolve? scope p = (firstConstant? past p).map Constant.atRoot := by
    rw [resolve?_of_absolute_or_none hp, h.constantAt? p]
  unfold find
  rw [hresolve]
  cases firstConstant? past p <;> rfl

theorem Records.findProtocol_eq (h : d.Records past) (p : Path) :
    d.findProtocol p = ((firstProtocol? past p).map Protocol.atRoot).elim (.error (.notFound p)) .ok := by
  unfold findProtocol
  rw [h.protocolAt?]
  cases firstProtocol? past p <;> rfl

theorem constantAt?_path_of_mem {c : Constant} (hc : c ∈ d.constants) : d.constantAt? c.path = some c :=
  constantAt?_eq_some_iff.mpr ⟨hc, rfl⟩

theorem protocolAt?_path_of_mem {q : Protocol} (hq : q ∈ d.protocols) : d.protocolAt? q.path = some q :=
  (find?_eq_some_iff_of_nodup d.protocols_nodup).mpr ⟨hq, rfl⟩

/-- After any calls, whether they failed or not, every declaration is held at its own path, which is absolute.
The next declaration is turned down exactly when it clashes with one that was tried before, and then nothing
changes. An absolute path denotes the first constant, and the first protocol, that was tried there, and it has
all extensions that were tried, in their order. -/
theorem lookups_after (calls : List Addition) :
    let d := after calls
    (∀ c ∈ d.constants, c.path.absolute = true ∧ d.constantAt? c.path = some c) ∧
      (∀ q ∈ d.protocols, q.path.absolute = true ∧ d.protocolAt? q.path = some q) ∧
      (∀ e ∈ d.extensions, e.target.absolute = true ∧ e ∈ d.extensionsOf e.target) ∧
      (∀ x e, (d.declare (.one x)).2 = .error e ↔
        x.Clashes (log calls) ∧ e = .duplicate x.path.toAbsolute) ∧
      (∀ x e, (d.declare (.one x)).2 = .error e → after (calls ++ [.one x]) = d) ∧
      (∀ scope p, p.absolute = true ∨ scope = none → d.find scope p =
        ((firstConstant? (log calls) p).map Constant.atRoot).elim (.error (.notFound p)) .ok) ∧
      (∀ p, d.findProtocol p =
        ((firstProtocol? (log calls) p).map Protocol.atRoot).elim (.error (.notFound p)) .ok) ∧
      ∀ p, d.extensionsOf p = (extensionsIn (log calls) p).map Extension.atRoot := by
  intro d
  have h : d.Records (log calls) := records_after calls
  refine ⟨fun c hc => ?_, fun q hq => ?_, fun e he => ?_,
    fun x e => snd_declare_one_eq_error_iff.trans h.add_eq_error_iff, fun x e hx => ?_,
    fun scope p hp => h.find_eq hp, h.findProtocol_eq, h.extensionsOf⟩
  · exact ⟨d.constants_absolute c hc, constantAt?_path_of_mem hc⟩
  · exact ⟨d.protocols_absolute q hq, protocolAt?_path_of_mem hq⟩
  · have habs := d.extensions_absolute e he
    exact ⟨habs, List.mem_filter.mpr ⟨he, decide_eq_true (Path.toAbsolute_eq_self habs).symm⟩⟩
  · rw [after_concat, declare_one_of_add_eq_error (snd_declare_one_eq_error_iff.mp hx)]

end Declarations

end MixinTypes
