import MixinTypes.Signature.Basic
import MixinTypes.Table
import MixinTypes.Ty.Names
import MixinTypes.Ty.Render
import MixinTypes.Ty.Subst

/-!
# Formal parameters

The parameters of an overload sorted into six groups, keyword groups as tables. `Formals.ofParams`
sorts a written list; a keyword that is written twice keeps its first position and its last type,
and nothing after a parameter that takes all further keywords is read.
-/

namespace MixinTypes

/-- Formal parameters by kind. -/
structure Formals where
  required : List Ty
  optional : List Ty
  rest : Option Ty
  keywords : Table String Ty
  optionalKeywords : Table String Ty
  restKeywords : Option Ty
deriving BEq, ReflBEq

namespace Formals

/-- No parameters. -/
def empty : Formals := ⟨[], [], none, .empty, .empty, none⟩

/-- Add one written parameter. -/
def add (f : Formals) : Param → Formals
  | .required t => { f with required := f.required ++ [t] }
  | .optional t => { f with optional := f.optional ++ [t] }
  | .rest t => { f with rest := some t }
  | .keyword name t => { f with keywords := f.keywords.insert name t }
  | .optionalKeyword name t => { f with optionalKeywords := f.optionalKeywords.insert name t }
  | .restKeywords t => { f with restKeywords := some t }

/-- Sort the parameters of a written list. -/
def ofParams (ps : List Param) : Formals := (Param.effective ps).foldl add empty

/-- Replace every type. -/
def map (g : Ty → Ty) (f : Formals) : Formals where
  required := f.required.map g
  optional := f.optional.map g
  rest := f.rest.map g
  keywords := f.keywords.map g
  optionalKeywords := f.optionalKeywords.map g
  restKeywords := f.restKeywords.map g

def subst (σ : Subst) (f : Formals) : Formals := f.map (Ty.subst σ)

/-- Whether any parameter is filled by keyword. -/
def hasKeywords (f : Formals) : Bool :=
  !f.keywords.isEmpty || !f.optionalKeywords.isEmpty || f.restKeywords.isSome

/-- The types filled by position, required ones first. -/
def positional (f : Formals) : List Ty := f.required ++ f.optional

/-- The parameters filled by a keyword of their own, required ones first. -/
def named (f : Formals) : List (String × Ty) := f.keywords.entries ++ f.optionalKeywords.entries

/-- Whether a parameter has this keyword as its own. -/
def declares (f : Formals) (name : String) : Bool :=
  f.keywords.contains name || f.optionalKeywords.contains name

/-- Every type, group by group. -/
def types (f : Formals) : List Ty :=
  f.required ++ f.optional ++ f.rest.toList ++ f.keywords.values ++ f.optionalKeywords.values
    ++ f.restKeywords.toList

theorem types_map (g : Ty → Ty) (f : Formals) : (f.map g).types = f.types.map g := by
  have optional : ∀ o : Option Ty, (o.map g).toList = o.toList.map g := by
    intro o
    cases o <;> rfl
  simp only [types, map, Table.values_map, optional, List.map_append]

theorem map_map (g h : Ty → Ty) (f : Formals) : (f.map g).map h = f.map (h ∘ g) := by
  simp [map, Table.map_map]

@[simp] theorem map_id (f : Formals) : f.map id = f := by
  simp [map]

theorem subst_id (f : Formals) : f.subst .id = f := by
  have types : Ty.subst .id = id := funext Ty.subst_id
  rw [subst, types, map_id]

theorem subst_subst (σ τ : Subst) (f : Formals) : (f.subst σ).subst τ = f.subst (σ.andThen τ) := by
  rw [subst, subst, subst, map_map]
  exact congrArg f.map (funext (Ty.subst_subst σ τ))

theorem beq_comm (f g : Formals) : (f == g) = (g == f) := by
  change (f.required == g.required && (f.optional == g.optional && (f.rest == g.rest &&
    (f.keywords == g.keywords && (f.optionalKeywords == g.optionalKeywords &&
      f.restKeywords == g.restKeywords))))) = _
  rw [BEq.comm (a := f.required), BEq.comm (a := f.optional), BEq.comm (a := f.rest),
    f.keywords.beq_comm, f.optionalKeywords.beq_comm, BEq.comm (a := f.restKeywords)]
  rfl

/-- Two functions make the same of formal parameters exactly when they agree on their types. -/
theorem map_eq_map_iff {g h : Ty → Ty} {f : Formals} :
    f.map g = f.map h ↔ ∀ t ∈ f.types, g t = h t := by
  have optional : ∀ o : Option Ty, o.map g = o.map h ↔ ∀ t ∈ o.toList, g t = h t := by
    intro o
    cases o <;> simp
  simp only [map, mk.injEq, List.map_inj_left, Table.map_eq_map_iff, optional, types,
    List.forall_mem_append, and_assoc]

/-- The texts of the parameters, group by group. -/
def partChars (f : Formals) : List (List Char) :=
  f.required.map Ty.toChars
    ++ f.optional.map (fun t => '?' :: t.toChars)
    ++ f.rest.toList.map (fun t => '*' :: t.toChars)
    ++ f.keywords.entries.map (fun e => e.1.toList ++ ':' :: ' ' :: e.2.toChars)
    ++ f.optionalKeywords.entries.map (fun e => '?' :: e.1.toList ++ ':' :: ' ' :: e.2.toChars)
    ++ f.restKeywords.toList.map (fun t => '*' :: '*' :: t.toChars)

/-- The text between the parentheses of a signature. -/
def toChars (f : Formals) : List Char := (", ".toList).intercalate f.partChars

def render (f : Formals) : String := String.ofList f.toChars

end Formals

end MixinTypes
