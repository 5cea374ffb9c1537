import MixinTypes.Formals
import MixinTypes.Ty.Vars

/-!
# Overloads

An overload is a signature with its parameters sorted: what a built method offers to its callers.
Substitution does not reach the overload's own type parameters.
-/

namespace MixinTypes

/-- The block that an overload takes. -/
structure Block where
  formals : Formals
  returns : Ty
deriving BEq, ReflBEq

/-- One way to call a method. The extent is that of the signature it came from. -/
structure Overload where
  typeParams : List String
  formals : Formals
  returns : Ty
  block : Option Block
  extent : Extent
deriving BEq, ReflBEq

namespace Block

/-- Replace every type. -/
def map (g : Ty → Ty) (b : Block) : Block := ⟨b.formals.map g, g b.returns⟩

/-- Every type. -/
def types (b : Block) : List Ty := b.formals.types ++ [b.returns]

theorem types_map (g : Ty → Ty) (b : Block) : (b.map g).types = b.types.map g := by
  simp [types, map, Formals.types_map]

theorem map_map (g h : Ty → Ty) (b : Block) : (b.map g).map h = b.map (h ∘ g) := by
  simp [map, Formals.map_map]

@[simp] theorem map_id (b : Block) : b.map id = b := by
  simp [map]

theorem beq_comm (b b' : Block) : (b == b') = (b' == b) := by
  change (b.formals == b'.formals && b.returns == b'.returns) = _
  rw [b.formals.beq_comm, BEq.comm (a := b.returns)]
  rfl

theorem map_eq_map_iff {g h : Ty → Ty} {b : Block} :
    b.map g = b.map h ↔ ∀ t ∈ b.types, g t = h t := by
  simp only [map, mk.injEq, Formals.map_eq_map_iff, types, List.forall_mem_append,
    List.forall_mem_singleton]

end Block

namespace Overload

/-- Sort the parameters of a signature after replacing its types with `f`. When `result` is given it
is the result as it stands. -/
def ofSignature (f : Ty → Ty) (result : Option Ty) (s : Signature) : Overload where
  typeParams := s.typeParams
  formals := .ofParams (s.params.map (Param.mapType f))
  block := s.block.map fun b => ⟨.ofParams (b.params.map (Param.mapType f)), f b.returns⟩
  returns := result.getD (f s.returns)
  extent := s.extent

/-- The overload of a signature whose names are all taken from the root. -/
def atRoot (s : Signature) : Overload := ofSignature (Ty.mapNames Nominal.toAbsolute) none s

def subst (σ : Subst) (o : Overload) : Overload :=
  let σ := σ.without o.typeParams
  { o with
    formals := o.formals.map (Ty.subst σ)
    returns := o.returns.subst σ
    block := o.block.map (Block.map (Ty.subst σ)) }

/-- Replace every type. -/
def map (g : Ty → Ty) (o : Overload) : Overload :=
  { o with
    formals := o.formals.map g
    returns := g o.returns
    block := o.block.map (Block.map g) }

/-- Every type. -/
def types (o : Overload) : List Ty :=
  o.formals.types ++ [o.returns] ++ o.block.toList.flatMap Block.types

/-- The type parameters that the types mention. -/
def vars (o : Overload) : List String := o.types.flatMap Ty.vars

/-- The names in the types. -/
def names (o : Overload) : List Nominal := o.types.flatMap Ty.names

theorem subst_eq_map (σ : Subst) (o : Overload) :
    o.subst σ = o.map (Ty.subst (σ.without o.typeParams)) := rfl

theorem formals_types_subset (o : Overload) : o.formals.types ⊆ o.types := fun _ ht =>
  List.mem_append_left _ (List.mem_append_left _ ht)

theorem returns_mem_types (o : Overload) : o.returns ∈ o.types :=
  List.mem_append_left _ (List.mem_append_right _ (List.mem_singleton_self _))

theorem types_map (g : Ty → Ty) (o : Overload) : (o.map g).types = o.types.map g := by
  cases hb : o.block <;> simp [types, map, hb, Formals.types_map, Block.types_map]

theorem names_subst {P : Nominal → Prop} {σ : Subst} (hσ : σ.Each fun t => ∀ n ∈ t.names, P n)
    {o : Overload} (ho : ∀ n ∈ o.names, P n) : ∀ n ∈ (o.subst σ).names, P n := by
  rw [names, List.forall_mem_flatMap] at ho
  rw [names, subst_eq_map, types_map, List.forall_mem_flatMap, List.forall_mem_map]
  have hσ := hσ.without (fun _ => List.forall_mem_nil _) o.typeParams
  exact fun t ht => Ty.names_subst hσ (ho t ht)

theorem map_map (g h : Ty → Ty) (o : Overload) : (o.map g).map h = o.map (h ∘ g) := by
  cases hb : o.block <;> simp [map, hb, Formals.map_map, Block.map_map]

theorem subst_id (o : Overload) : o.subst .id = o := by
  have types : Ty.subst .id = id := funext Ty.subst_id
  have block : o.block.map (Block.map id) = o.block := by
    rw [funext Block.map_id]
    exact Option.map_id' ..
  rw [subst_eq_map, Subst.without_id, types, map, Formals.map_id, block]
  rfl

theorem beq_comm (o o' : Overload) : (o == o') = (o' == o) := by
  have block : ∀ b b' : Option Block, (b == b') = (b' == b) := by
    rintro (_ | b) (_ | b')
    · rfl
    · rfl
    · rfl
    · exact b.beq_comm b'
  change (o.typeParams == o'.typeParams && (o.formals == o'.formals && (o.returns == o'.returns &&
    (o.block == o'.block && o.extent == o'.extent)))) = _
  rw [BEq.comm (a := o.typeParams), o.formals.beq_comm, BEq.comm (a := o.returns), block,
    BEq.comm (a := o.extent)]
  rfl

/-- Two functions make the same of an overload exactly when they agree on its types. -/
theorem map_eq_map_iff {g h : Ty → Ty} {o : Overload} :
    o.map g = o.map h ↔ ∀ t ∈ o.types, g t = h t := by
  have block : ∀ b : Option Block, b.map (Block.map g) = b.map (Block.map h) ↔
      ∀ t ∈ b.toList.flatMap Block.types, g t = h t := by
    intro b
    cases b <;> simp [Block.map_eq_map_iff]
  simp only [map, mk.injEq, true_and, and_true, Formals.map_eq_map_iff, block, types,
    List.forall_mem_append, List.forall_mem_singleton, and_assoc]

/-- An overload that takes any arguments and gives `any`. -/
def permissive : Overload where
  typeParams := []
  formals := { Formals.empty with rest := some .any, restKeywords := some .any }
  returns := .any
  block := none
  extent := .nowhere

/-- The text of an overload, in the form that signatures are written in. -/
def toChars (o : Overload) : List Char :=
  let own := match o.typeParams with
    | [] => []
    | names => '<' :: (", ".toList).intercalate (names.map fun n => '\x27' :: n.toList) ++ ['>', ' ']
  let block := match o.block with
    | none => []
    | some b => " \x7b (".toList ++ b.formals.toChars ++ ") -> ".toList ++ b.returns.toChars
        ++ " \x7d".toList
  own ++ '(' :: o.formals.toChars ++ ')' :: block ++ " -> ".toList ++ o.returns.toChars

def render (o : Overload) : String := String.ofList o.toChars

end Overload

end MixinTypes
