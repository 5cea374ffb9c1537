import MixinTypes.Interface.Basic
import MixinTypes.World.Basic

/-!
# Plans

How the interface of a nominal name comes about, as a list of steps: which other interfaces are
merged and with what arguments, which definitions are added, and which names met on the way could
not be resolved. A plan follows from the declarations alone; `Plan.assemble` carries it out once the
requested interfaces are known.

What holds of every step of a plan is proved by kind of step, with one lemma for each group of steps and
`exists_parts` for the whole: a plan merges what it requests before it defines anything.
-/

namespace MixinTypes

/-- One step towards an interface. -/
inductive Step where
  /-- A name that could not be resolved. -/
  | note (u : Unresolved)
  /-- Take over the methods of another interface. -/
  | seed (source : Nominal) (args : List Ty)
  /-- Merge another interface, methods and further types. -/
  | mix (source : Nominal) (args : List Ty)
  /-- A further type of the values. -/
  | constrain (type : Ty)
  /-- A definition, put over what is there under its name. -/
  | define (d : Definition)
  /-- A definition in place of what is there under its name. -/
  | put (d : Definition)
  /-- Forget a method. -/
  | drop (name : String)

namespace Step

/-- The interface that a step needs. -/
def request? : Step → Option Nominal
  | .seed source _ | .mix source _ => some source
  | _ => none

/-- Carry out a step. -/
def apply (found : Nominal → Interface) (g : Gathered) : Step → Gathered
  | .note _ => g
  | .seed source args => { g with methods := (g.merge (found source) args).methods }
  | .mix source args => g.merge (found source) args
  | .constrain t => { g with supers := g.supers ++ [t] }
  | .define d => { g with methods := g.methods.override d.name (.ofDefinition d) }
  | .put d => { g with methods := g.methods.insert d.name (.ofDefinition d) }
  | .drop name => { g with methods := g.methods.erase name }

/-- Notes change nothing. -/
theorem foldl_apply_note (found : Nominal → Interface) (us : List Unresolved) (g : Gathered) :
    (us.map note).foldl (apply found) g = g := by
  induction us with
  | nil => rfl
  | cons u us ih => exact ih

end Step

/-- The steps towards the interface of `name`. -/
structure Plan where
  name : Nominal
  params : List String
  steps : List Step

namespace Plan

/-- The interfaces that a plan needs, in the order of its steps. -/
def requests (p : Plan) : List Nominal := p.steps.filterMap Step.request?

/-- What the steps gather. -/
def gathered (p : Plan) (found : Nominal → Interface) : Gathered :=
  p.steps.foldl (Step.apply found) .empty

/-- The interface that a plan leads to. -/
def assemble (p : Plan) (found : Nominal → Interface) : Interface :=
  ⟨p.name, p.params, (p.gathered found).methods, (p.gathered found).supers⟩

end Plan

namespace World

variable (w : World)

/-! ## Groups of steps -/

/-- Notes for the names in types. -/
def noteTypes (scope : Option Path) (ts : List Ty) : List Step :=
  (ts.flatMap (w.unresolvedIn scope)).map .note

/-- A note for a name. -/
def noteName (scope : Option Path) (n : Nominal) : List Step :=
  (w.unresolved? scope n).toList.map .note

/-- Notes for the names in the signatures of a method. -/
def noteSignatures (scope : Option Path) (result : Option Ty) (ss : List Signature) : List Step :=
  (ss.flatMap (w.unresolvedInSignature scope result)).map .note

/-- Merge one side of a mixin. Its arguments are resolved before its name. -/
def mixinSteps (scope : Path) (facet : Facet) (a : Applied) : List Step :=
  w.noteTypes (some scope) a.args ++ w.noteName (some scope) ⟨facet, a.path⟩
    ++ [.mix (w.absoluteName (some scope) ⟨facet, a.path⟩)
          (a.args.map (w.absoluteTy (some scope)))]

/-- The definition that a method declared in `scope` gives to `owner`. -/
def definition (scope : Option Path) (owner : Nominal) (m : MethodDecl) : Definition :=
  ⟨owner, m.name, m.signatures.map (w.overload scope none), m.attributes⟩

/-- Add a method declared in `scope` to those of `owner`. -/
def defineSteps (scope : Path) (owner : Nominal) (m : MethodDecl) : List Step :=
  w.noteSignatures (some scope) none m.signatures ++ [.define (w.definition (some scope) owner m)]

/-- The mixins of a module or class object: the object sides of what is included and the instance
sides of what is extended. -/
def objectMixinSteps (c : Constant) : List Step :=
  c.members.flatMap fun
    | .method _ => []
    | .included a => w.mixinSteps c.path .moduleObject a
    | .extended a => w.mixinSteps c.path .instances a

/-! ## Plans by facet -/

/-- The type that users of a module must have. -/
def selfTypeSteps (c : Constant) : List Step :=
  w.noteTypes (some c.path) c.selfType?.toList
    ++ c.selfType?.toList.map fun t => .constrain (w.absoluteTy (some c.path) t)

/-- The superclass of the instances, its arguments resolved after its name. -/
def superclassSteps (c : Constant) : List Step :=
  match w.base? c with
  | none => []
  | some base =>
    w.noteName (some c.path) ⟨.instances, base.path⟩
      ++ [.mix (w.absoluteName (some c.path) ⟨.instances, base.path⟩)
            (base.args.map (w.absoluteTy (some c.path)))]
      ++ w.noteTypes (some c.path) base.args

/-- The instances of a class or module: its superclass or self-type, its mixins, its own methods
other than `initialize`, and the methods of its extensions. -/
def instancePlan (c : Constant) : Plan where
  name := ⟨.instances, c.path⟩
  params := c.params
  steps :=
    w.superclassSteps c
      ++ w.selfTypeSteps c
      ++ c.includes.flatMap (w.mixinSteps c.path .instances)
      ++ (c.methods.filter fun m => m.onInstances && m.name ≠ "initialize").flatMap
          (w.defineSteps c.path ⟨.instances, c.path⟩)
      ++ ((w.decls.extensionsOf c.path).flatMap fun e => e.methods.filter MethodDecl.onInstances).flatMap
          (w.defineSteps c.path ⟨.instances, c.path⟩)

/-- A module object: an instance of the class of modules with the module's mixins and its own
methods. -/
def modulePlan (c : Constant) : Plan where
  name := ⟨.moduleObject, c.path⟩
  params := c.params
  steps :=
    w.selfTypeSteps c
      ++ [.seed ⟨.instances, w.roots.moduleClass.toAbsolute⟩ []]
      ++ w.objectMixinSteps c
      ++ (c.methods.filter MethodDecl.onObject).flatMap
          (w.defineSteps c.path ⟨.moduleObject, c.path⟩)

/-- What a method declared in a class adds to the class object. One of the object itself is defined
as it is; `initialize` becomes `new` when the object can construct. -/
def classMethodSteps (c : Constant) (constructs : Bool) (m : MethodDecl) : List Step :=
  if m.onObject then w.defineSteps c.path ⟨.classObject constructs, c.path⟩ m
  else if m.name = "initialize" && constructs then
    w.noteSignatures (some c.path) (some .inst) m.signatures
      ++ [.put ⟨⟨.classObject constructs, c.path⟩, "new",
            m.signatures.map (w.overload (some c.path) (some .inst)), []⟩]
  else []

/-- The object of the superclass, whose arguments do not matter. -/
def superclassObjectSteps (c : Constant) (constructs : Bool) : List Step :=
  match w.base? c with
  | none => []
  | some base =>
    w.noteName (some c.path) ⟨.classObject constructs, base.path⟩
      ++ [.mix (w.absoluteName (some c.path) ⟨.classObject constructs, base.path⟩) []]

/-- A class object: an instance of the class of classes over the object of its superclass, with the
mixins and the methods of the class. Only one that constructs keeps a method `new`. -/
def classPlan (constructs : Bool) (c : Constant) : Plan where
  name := ⟨.classObject constructs, c.path⟩
  params := c.params
  steps :=
    [.seed ⟨.instances, w.roots.classClass.toAbsolute⟩ [.inst]]
      ++ w.superclassObjectSteps c constructs
      ++ w.objectMixinSteps c
      ++ c.methods.flatMap (w.classMethodSteps c constructs)
      ++ if constructs then [] else [.drop "new"]

/-- A protocol: its methods as declared, taken from the root. -/
def protocolPlan (p : Protocol) : Plan where
  name := ⟨.protocol, p.path⟩
  params := p.params
  steps := p.methods.map fun m => .put (w.definition none ⟨.protocol, p.path⟩ m)

/-- The plan of a nominal name. Its path is taken from the root. -/
def plan (n : Nominal) : Except LookupError Plan :=
  match n.facet with
  | .instances => (w.decls.find none n.path).map w.instancePlan
  | .moduleObject => (w.decls.findKind .mod none n.path).map w.modulePlan
  | .classObject constructs => (w.decls.findKind .cls none n.path).map (w.classPlan constructs)
  | .protocol => (w.decls.findProtocol n.path).map w.protocolPlan

/-! ## What is drawn from the steps of a group -/

section Draw

variable {w} {β : Type} {f : Step → Option β} {c : Constant} (note : ∀ u, f (.note u) = none)

include note

theorem filterMap_note (us : List Unresolved) : (us.map Step.note).filterMap f = [] := by
  rw [List.filterMap_map, List.filterMap_eq_nil_iff]
  exact fun u _ => note u

/-- Nothing is drawn from the notes before a step. -/
theorem filterMap_noted (us : List Unresolved) (s : Step) :
    (us.map Step.note ++ [s]).filterMap f = (f s).toList := by
  rw [List.filterMap_append, filterMap_note note, List.nil_append, List.filterMap_cons]
  cases f s <;> rfl

theorem filterMap_mixinSteps (scope : Path) (facet : Facet) (a : Applied) :
    (w.mixinSteps scope facet a).filterMap f =
      (f (.mix (w.absoluteName (some scope) ⟨facet, a.path⟩)
        (a.args.map (w.absoluteTy (some scope))))).toList := by
  rw [mixinSteps, noteTypes, noteName, ← List.map_append, filterMap_noted note]

theorem filterMap_defineSteps (scope : Path) (owner : Nominal) (m : MethodDecl) :
    (w.defineSteps scope owner m).filterMap f =
      (f (.define (w.definition (some scope) owner m))).toList := by
  rw [defineSteps, noteSignatures, filterMap_noted note]

theorem filterMap_selfTypeSteps (constrain : ∀ t, f (.constrain t) = none) :
    (w.selfTypeSteps c).filterMap f = [] := by
  rw [selfTypeSteps, noteTypes, List.filterMap_append, filterMap_note note, List.filterMap_map,
    List.nil_append, List.filterMap_eq_nil_iff]
  exact fun t _ => constrain _

theorem filterMap_superclassSteps :
    (w.superclassSteps c).filterMap f = (w.base? c).toList.filterMap fun base =>
      f (.mix (w.absoluteName (some c.path) ⟨.instances, base.path⟩)
        (base.args.map (w.absoluteTy (some c.path)))) := by
  unfold superclassSteps
  split
  · next h => rw [h]; rfl
  · next base h =>
    rw [h, List.filterMap_append, noteName, filterMap_noted note, noteTypes, filterMap_note note,
      List.append_nil, Option.toList_some, List.filterMap_cons]
    cases f (.mix _ _) <;> rfl

theorem filterMap_superclassObjectSteps (k : Bool) :
    (w.superclassObjectSteps c k).filterMap f = (w.base? c).toList.filterMap fun base =>
      f (.mix (w.absoluteName (some c.path) ⟨.classObject k, base.path⟩) []) := by
  unfold superclassObjectSteps
  split
  · next h => rw [h]; rfl
  · next base h =>
    rw [h, noteName, filterMap_noted note, Option.toList_some, List.filterMap_cons]
    cases f (.mix _ _) <;> rfl

theorem filterMap_classMethodSteps (put : ∀ d, d.name = "new" → f (.put d) = none) (k : Bool)
    (m : MethodDecl) :
    (w.classMethodSteps c k m).filterMap f =
      if m.onObject then (f (.define (w.definition (some c.path) ⟨.classObject k, c.path⟩ m))).toList
      else [] := by
  unfold classMethodSteps
  split
  · exact filterMap_defineSteps note ..
  · split
    · rw [noteSignatures, filterMap_noted note, put _ rfl]
      rfl
    · rfl

end Draw

/-! ## What the steps of a group can be -/

section Steps

variable {w} {P : Step → Prop} {c : Constant} (note : ∀ u, P (.note u))

include note

theorem forall_mem_noteTypes (scope : Option Path) (ts : List Ty) : ∀ s ∈ w.noteTypes scope ts, P s :=
  List.forall_mem_map.mpr fun u _ => note u

theorem forall_mem_noteName (scope : Option Path) (n : Nominal) : ∀ s ∈ w.noteName scope n, P s :=
  List.forall_mem_map.mpr fun u _ => note u

theorem forall_mem_noteSignatures (scope : Option Path) (result : Option Ty) (ss : List Signature) :
    ∀ s ∈ w.noteSignatures scope result ss, P s :=
  List.forall_mem_map.mpr fun u _ => note u

theorem forall_mem_mixinSteps (mix : ∀ r args, P (.mix r args)) (scope : Path) (facet : Facet)
    (a : Applied) : ∀ s ∈ w.mixinSteps scope facet a, P s := by
  refine List.forall_mem_append.mpr ⟨List.forall_mem_append.mpr ⟨?_, ?_⟩, ?_⟩
  · exact forall_mem_noteTypes note _ _
  · exact forall_mem_noteName note _ _
  · exact List.forall_mem_singleton.mpr (mix _ _)

theorem forall_mem_defineSteps {scope : Path} {owner : Nominal} {m : MethodDecl}
    (define : P (.define (w.definition (some scope) owner m))) :
    ∀ s ∈ w.defineSteps scope owner m, P s := by
  refine List.forall_mem_append.mpr ⟨?_, ?_⟩
  · exact forall_mem_noteSignatures note _ _ _
  · exact List.forall_mem_singleton.mpr define

theorem forall_mem_objectMixinSteps (mix : ∀ r args, P (.mix r args)) :
    ∀ s ∈ w.objectMixinSteps c, P s := by
  refine List.forall_mem_flatMap.mpr fun m _ => ?_
  cases m with
  | method => exact List.forall_mem_nil _
  | included | extended => exact forall_mem_mixinSteps note mix _ _ _

theorem forall_mem_selfTypeSteps
    (constrain : ∀ t, c.selfType? = some t → P (.constrain (w.absoluteTy (some c.path) t))) :
    ∀ s ∈ w.selfTypeSteps c, P s := by
  refine List.forall_mem_append.mpr ⟨?_, ?_⟩
  · exact forall_mem_noteTypes note _ _
  · exact List.forall_mem_map.mpr fun t ht => constrain t (Option.mem_toList.mp ht)

theorem forall_mem_superclassSteps (mix : ∀ r args, P (.mix r args)) :
    ∀ s ∈ w.superclassSteps c, P s := by
  unfold superclassSteps
  split
  · exact List.forall_mem_nil _
  · refine List.forall_mem_append.mpr ⟨List.forall_mem_append.mpr ⟨?_, ?_⟩, ?_⟩
    · exact forall_mem_noteName note _ _
    · exact List.forall_mem_singleton.mpr (mix _ _)
    · exact forall_mem_noteTypes note _ _

theorem forall_mem_superclassObjectSteps (mix : ∀ r args, P (.mix r args)) (k : Bool) :
    ∀ s ∈ w.superclassObjectSteps c k, P s := by
  unfold superclassObjectSteps
  split
  · exact List.forall_mem_nil _
  · refine List.forall_mem_append.mpr ⟨?_, ?_⟩
    · exact forall_mem_noteName note _ _
    · exact List.forall_mem_singleton.mpr (mix _ _)

theorem forall_mem_classMethodSteps {k : Bool} {m : MethodDecl}
    (define : m.onObject = true → P (.define (w.definition (some c.path) ⟨.classObject k, c.path⟩ m)))
    (put : P (.put ⟨⟨.classObject k, c.path⟩, "new",
      m.signatures.map (w.overload (some c.path) (some .inst)), []⟩)) :
    ∀ s ∈ w.classMethodSteps c k m, P s := by
  unfold classMethodSteps
  split
  · next hside => exact forall_mem_defineSteps note (define hside)
  · split
    · refine List.forall_mem_append.mpr ⟨?_, ?_⟩
      · exact forall_mem_noteSignatures note _ _ _
      · exact List.forall_mem_singleton.mpr put
    · exact List.forall_mem_nil _

/-- A plan merges all that it requests before it adds definitions of its own, and what there is to prove
of the steps of each part is proved for each kind of step. All its definitions are owned by its name. It
replaces or forgets `new` only, save that the definitions of a protocol replace each other; only a class
object that cannot construct forgets it. -/
theorem exists_parts {Q : Step → Prop} {n : Nominal} {p : Plan} (hp : w.plan n = .ok p)
    (note' : ∀ u, Q (.note u)) (seed : ∀ r args, P (.seed r args)) (mix : ∀ r args, P (.mix r args))
    (constrain : ∀ c ∈ w.decls.constants, ∀ t, c.selfType? = some t →
      P (.constrain (w.absoluteTy (some c.path) t)))
    (define : ∀ d : Definition, d.owner = n.toAbsolute → Q (.define d))
    (put : ∀ d : Definition, d.owner = n.toAbsolute → d.name = "new" ∨ n.facet = .protocol → Q (.put d))
    (drop : n.facet = .classObject false → Q (.drop "new")) :
    ∃ merging own, p.steps = merging ++ own ∧ (∀ s ∈ merging, P s) ∧ ∀ s ∈ own, Q s := by
  have defined : ∀ scope {owner}, owner = n.toAbsolute → ∀ ms : List MethodDecl,
      ∀ s ∈ ms.flatMap (w.defineSteps scope owner), Q s := fun _ _ howner _ =>
    List.forall_mem_flatMap.mpr fun _ _ => forall_mem_defineSteps note' (define _ howner)
  obtain ⟨facet, path⟩ := n
  have owner : ∀ {c : Constant}, w.decls.find none path = .ok c →
      (⟨facet, c.path⟩ : Nominal) = (⟨facet, path⟩ : Nominal).toAbsolute := fun hc =>
    congrArg (Nominal.mk facet) (Declarations.path_of_find_none hc)
  cases facet with
  | instances =>
    obtain ⟨c, hc, rfl⟩ := exists_of_map_eq_ok hp
    refine ⟨_, _, List.append_assoc .., ?_, ?_⟩
    · simp only [List.forall_mem_append]
      refine ⟨⟨?_, ?_⟩, ?_⟩
      · exact forall_mem_superclassSteps note mix
      · exact forall_mem_selfTypeSteps note (constrain c (Declarations.mem_of_find hc))
      · exact List.forall_mem_flatMap.mpr fun a _ => forall_mem_mixinSteps note mix _ _ a
    · exact List.forall_mem_append.mpr ⟨defined _ (owner hc) _, defined _ (owner hc) _⟩
  | moduleObject =>
    obtain ⟨c, hc, rfl⟩ := exists_of_map_eq_ok hp
    have hfind := (Declarations.find_of_findKind hc).1
    refine ⟨_, _, rfl, ?_, defined _ (owner hfind) _⟩
    simp only [List.forall_mem_append]
    refine ⟨⟨?_, ?_⟩, ?_⟩
    · exact forall_mem_selfTypeSteps note (constrain c (Declarations.mem_of_find hfind))
    · exact List.forall_mem_singleton.mpr (seed _ _)
    · exact forall_mem_objectMixinSteps note mix
  | classObject k =>
    obtain ⟨c, hc, rfl⟩ := exists_of_map_eq_ok hp
    have howner := owner (Declarations.find_of_findKind hc).1
    refine ⟨_, _, List.append_assoc .., ?_, ?_⟩
    · simp only [List.forall_mem_append]
      refine ⟨⟨?_, ?_⟩, ?_⟩
      · exact List.forall_mem_singleton.mpr (seed _ _)
      · exact forall_mem_superclassObjectSteps note mix k
      · exact forall_mem_objectMixinSteps note mix
    · refine List.forall_mem_append.mpr ⟨?_, ?_⟩
      · exact List.forall_mem_flatMap.mpr fun m _ => forall_mem_classMethodSteps note'
          (fun _ => define _ howner) (put _ howner (.inl rfl))
      · cases k with
        | false => exact List.forall_mem_singleton.mpr (drop rfl)
        | true => exact List.forall_mem_nil _
  | protocol =>
    obtain ⟨q, hq, rfl⟩ := exists_of_map_eq_ok hp
    have howner := congrArg (Nominal.mk .protocol)
      (Declarations.path_of_protocolAt? (Declarations.protocolAt?_of_findProtocol hq))
    exact ⟨[], _, rfl, List.forall_mem_nil _,
      List.forall_mem_map.mpr fun _ _ => put _ howner (.inr rfl)⟩

end Steps

end World

end MixinTypes
