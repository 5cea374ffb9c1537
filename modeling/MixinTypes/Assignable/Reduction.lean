import MixinTypes.Ty.Parts
import MixinTypes.World.Ancestry

/-!
# Reducing a question of assignability

Whether values of one type may be used where another is expected comes down, by the shape of the
two types, to an answer, to the same question about smaller types, or to a question about the
interface of a name. The first rule that fits counts: `any` on either side, equality, a union as
the source, a union as the destination, an intersection as the destination, an intersection as the
source, two nominal types.
-/

namespace MixinTypes

/-- A question: may values of the first type be used where the second is expected? -/
abbrev Goal := Ty × Ty

namespace Ty

def IsUnion : Ty → Prop
  | .union _ => True
  | _ => False

def IsInter : Ty → Prop
  | .inter _ => True
  | _ => False

theorem not_isUnion {t : Ty} (h : ∀ ts, t = .union ts → False) : ¬ t.IsUnion := by
  cases t with
  | union ts => exact absurd rfl (h ts)
  | _ => exact fun ht => ht

theorem not_isInter {t : Ty} (h : ∀ ts, t = .inter ts → False) : ¬ t.IsInter := by
  cases t with
  | inter ts => exact absurd rfl (h ts)
  | _ => exact fun ht => ht

end Ty

/-- Both facets are those of instances, or both are those of class objects. -/
inductive Facet.Akin : Facet → Facet → Prop where
  | instances : Akin .instances .instances
  | classObjects {j k : Bool} : Akin (.classObject j) (.classObject k)

/-- What a question comes down to. -/
inductive Reduction where
  | decided (holds : Bool)
  /-- Every one of these must hold. -/
  | all (goals : List Goal)
  /-- One of these must hold. -/
  | any (goals : List Goal)
  /-- One of the further types of the source, the values of `name`, must do. -/
  | supers (name : Nominal)
  /-- Every method of the protocol `required` must be among those of `provided`. -/
  | methods (required provided : Nominal)

namespace World

/-- The question about two nominal types of one facet. Arguments have to be assignable in both
directions; a proper ancestor takes any arguments. -/
def reduceKin (w : World) (n : Nominal) (args : List Ty) (m : Nominal) (params : List Ty) :
    Reduction :=
  if n.path.toAbsolute = m.path.toAbsolute then
    if args.length = params.length then
      .all ((args.zip params).flatMap fun p => [(p.1, p.2), (p.2, p.1)])
    else .decided false
  else if m.path.toAbsolute ∈ w.ancestors n.path then .decided true
  else .supers n

/-- The question about two nominal types. -/
def reduceNamed (w : World) (n : Nominal) (args : List Ty) (m : Nominal) (params : List Ty) :
    Reduction :=
  match n.facet, m.facet with
  | _, .protocol => .methods m n
  | .moduleObject, .moduleObject => .decided (n.path.toAbsolute = m.path.toAbsolute)
  | .instances, .instances | .classObject _, .classObject _ => w.reduceKin n args m params
  | _, _ => .decided false

/-- What the question whether `src` is assignable to `dest` comes down to. -/
def reduce (w : World) (src dest : Ty) : Reduction :=
  if src = .any ∨ dest = .any ∨ src = dest then .decided true
  else
    match src, dest with
    | .union ts, _ => .all (ts.map fun t => (t, dest))
    | _, .union ts => .any (ts.map fun t => (src, t))
    | _, .inter ts => .all (ts.map fun t => (src, t))
    | .inter ts, _ => .any (ts.map fun t => (t, dest))
    | .named n args, .named m params => w.reduceNamed n args m params
    | _, _ => .decided false

/-! ## The rule that applies -/

variable {w : World} {src dest : Ty} {ts : List Ty}

theorem reduce_of_trivial (h : src = .any ∨ dest = .any ∨ src = dest) :
    w.reduce src dest = .decided true := by
  unfold reduce
  rw [if_pos h]

theorem reduce_unionSource (h : ¬ (Ty.union ts = .any ∨ dest = .any ∨ Ty.union ts = dest)) :
    w.reduce (.union ts) dest = .all (ts.map fun t => (t, dest)) := by
  unfold reduce
  rw [if_neg h]

theorem reduce_unionDest (h : ¬ (src = .any ∨ Ty.union ts = .any ∨ src = .union ts))
    (hs : ¬ src.IsUnion) : w.reduce src (.union ts) = .any (ts.map fun t => (src, t)) := by
  unfold reduce
  rw [if_neg h]
  cases src <;> first | rfl | exact absurd trivial hs

theorem reduce_interDest (h : ¬ (src = .any ∨ Ty.inter ts = .any ∨ src = .inter ts))
    (hs : ¬ src.IsUnion) : w.reduce src (.inter ts) = .all (ts.map fun t => (src, t)) := by
  unfold reduce
  rw [if_neg h]
  cases src <;> first | rfl | exact absurd trivial hs

theorem reduce_interSource (h : ¬ (Ty.inter ts = .any ∨ dest = .any ∨ Ty.inter ts = dest))
    (hu : ¬ dest.IsUnion) (hi : ¬ dest.IsInter) :
    w.reduce (.inter ts) dest = .any (ts.map fun t => (t, dest)) := by
  unfold reduce
  rw [if_neg h]
  cases dest <;> first | rfl | exact absurd trivial hu | exact absurd trivial hi

theorem reduce_named {n m : Nominal} {args params : List Ty}
    (h : ¬ (Ty.named n args = .any ∨ Ty.named m params = .any ∨ Ty.named n args = .named m params)) :
    w.reduce (.named n args) (.named m params) = w.reduceNamed n args m params := by
  unfold reduce
  rw [if_neg h]

theorem reduceNamed_of_akin {n m : Nominal} {args params : List Ty} (h : n.facet.Akin m.facet) :
    w.reduceNamed n args m params = w.reduceKin n args m params := by
  obtain ⟨f, p⟩ := n
  obtain ⟨f', q⟩ := m
  cases h <;> rfl

theorem reduceNamed_of_protocol {n m : Nominal} {args params : List Ty} (h : m.facet = .protocol) :
    w.reduceNamed n args m params = .methods m n := by
  obtain ⟨f, p⟩ := m
  obtain rfl : f = .protocol := h
  rfl

theorem reduceNamed_of_moduleObject {n m : Nominal} {args params : List Ty}
    (h : n.facet = .moduleObject) (h' : m.facet = .moduleObject) :
    w.reduceNamed n args m params = .decided (n.path.toAbsolute = m.path.toAbsolute) := by
  obtain ⟨f, p⟩ := n
  obtain ⟨f', q⟩ := m
  obtain rfl : f = .moduleObject := h
  obtain rfl : f' = .moduleObject := h'
  rfl

end World

namespace Reduction

/-- The questions about smaller types. -/
def goals : Reduction → List Goal
  | .all gs | .any gs => gs
  | _ => []

end Reduction

namespace World

theorem mem_of_mem_goals_reduceKin {w : World} {n m : Nominal} {args params : List Ty} {g : Goal}
    (h : g ∈ (w.reduceKin n args m params).goals) :
    (g.1 ∈ args ∨ g.1 ∈ params) ∧ (g.2 ∈ args ∨ g.2 ∈ params) := by
  unfold reduceKin at h
  split at h
  · split at h
    · obtain ⟨p, hp, hg⟩ := List.mem_flatMap.mp h
      have hz := List.of_mem_zip hp
      rcases List.mem_cons.mp hg with rfl | hg
      · exact ⟨.inl hz.1, .inr hz.2⟩
      · obtain rfl := List.mem_singleton.mp hg
        exact ⟨.inr hz.2, .inl hz.1⟩
    · simp [Reduction.goals] at h
  · split at h <;> simp [Reduction.goals] at h

theorem mem_of_mem_goals_reduceNamed {w : World} {n m : Nominal} {args params : List Ty} {g : Goal}
    (h : g ∈ (w.reduceNamed n args m params).goals) :
    (g.1 ∈ args ∨ g.1 ∈ params) ∧ (g.2 ∈ args ∨ g.2 ∈ params) := by
  unfold reduceNamed at h
  split at h
  · simp [Reduction.goals] at h
  · simp [Reduction.goals] at h
  · exact mem_of_mem_goals_reduceKin h
  · exact mem_of_mem_goals_reduceKin h
  · simp [Reduction.goals] at h

/-- A reduced question only speaks of the two types and of what is directly inside them. -/
theorem mem_of_mem_goals_reduce {w : World} {src dest : Ty} {g : Goal}
    (h : g ∈ (w.reduce src dest).goals) :
    (g.1 ∈ src.parts ∨ g.1 ∈ dest.parts) ∧ (g.2 ∈ src.parts ∨ g.2 ∈ dest.parts) := by
  have child : ∀ {s t : Ty} {ts : List Ty}, t.children = ts → s ∈ ts → s ∈ t.parts :=
    fun e h => Ty.mem_parts_of_mem_children (e ▸ h)
  unfold reduce at h
  split at h
  · simp [Reduction.goals] at h
  · split at h
    · obtain ⟨t, ht, rfl⟩ := List.mem_map.mp h
      exact ⟨.inl (child rfl ht), .inr (Ty.self_mem_parts _)⟩
    · obtain ⟨t, ht, rfl⟩ := List.mem_map.mp h
      exact ⟨.inl (Ty.self_mem_parts _), .inr (child rfl ht)⟩
    · obtain ⟨t, ht, rfl⟩ := List.mem_map.mp h
      exact ⟨.inl (Ty.self_mem_parts _), .inr (child rfl ht)⟩
    · obtain ⟨t, ht, rfl⟩ := List.mem_map.mp h
      exact ⟨.inl (child rfl ht), .inr (Ty.self_mem_parts _)⟩
    · have hg := mem_of_mem_goals_reduceNamed h
      exact ⟨hg.1.imp (child rfl) (child rfl), hg.2.imp (child rfl) (child rfl)⟩
    · simp [Reduction.goals] at h

end World

end MixinTypes
