import MixinTypes.Text.Extent
import MixinTypes.Ty.Basic

/-!
# Signatures as written

A signature is one overload of a method in the words of its source: parameters of six kinds in any
order, an optional block, a result, and the extent of the text it came from.
-/

namespace MixinTypes

/-- One parameter of a written signature. -/
inductive Param where
  | required (type : Ty)
  | optional (type : Ty)
  | rest (type : Ty)
  | keyword (name : String) (type : Ty)
  | optionalKeyword (name : String) (type : Ty)
  | restKeywords (type : Ty)
deriving DecidableEq

namespace Param

def type : Param → Ty
  | .required t | .optional t | .rest t | .keyword _ t | .optionalKeyword _ t | .restKeywords t => t

def isRestKeywords : Param → Bool
  | .restKeywords _ => true
  | _ => false

/-- Replace the type of a parameter. -/
def mapType (f : Ty → Ty) : Param → Param
  | .required t => .required (f t)
  | .optional t => .optional (f t)
  | .rest t => .rest (f t)
  | .keyword name t => .keyword name (f t)
  | .optionalKeyword name t => .optionalKeyword name (f t)
  | .restKeywords t => .restKeywords (f t)

/-- The parameters that count: nothing after the first one that takes all further keywords. -/
def effective : List Param → List Param
  | [] => []
  | p :: ps => if p.isRestKeywords then [p] else p :: effective ps

@[simp] theorem isRestKeywords_mapType (f : Ty → Ty) (p : Param) :
    (p.mapType f).isRestKeywords = p.isRestKeywords := by
  cases p <;> rfl

theorem effective_map_mapType (f : Ty → Ty) (ps : List Param) :
    effective (ps.map (mapType f)) = (effective ps).map (mapType f) := by
  induction ps with
  | nil => rfl
  | cons p ps ih => by_cases h : p.isRestKeywords <;> simp [effective, h, ih]

end Param

/-- The block of a written signature. -/
structure BlockSignature where
  params : List Param
  returns : Ty
deriving DecidableEq

/-- One overload of a method as written. -/
structure Signature where
  typeParams : List String
  params : List Param
  block : Option BlockSignature
  returns : Ty
  extent : Extent
deriving DecidableEq

/-- The types of a signature in the order in which they count; without its result when that is
given from elsewhere. -/
def Signature.types (s : Signature) (withResult : Bool) : List Ty :=
  (Param.effective s.params).map Param.type
    ++ s.block.toList.flatMap (fun b => (Param.effective b.params).map Param.type ++ [b.returns])
    ++ if withResult then [s.returns] else []

end MixinTypes
