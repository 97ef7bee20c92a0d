/-!
# Types

Types are compared by structure: two signatures built apart are the same type
as soon as they have the same shape.  `Ty.text` is the spelling in messages and
reports, and `Ty.functionType?` gives the signature of a function-valued type.

Types are nested to any depth.  The limit that an interpreter sets to the
recursion over them is left out.
-/

namespace CallReach

/-- A type of the program. -/
inductive Ty where
  /-- A named type that is not a function type. -/
  | scalar (name : String)
  | pointer (pointee : Ty)
  | signature (result : Ty) (params : List Ty) (variadic : Bool)

namespace Ty

instance : Inhabited Ty := ⟨scalar ""⟩

/-! ## Equality -/

mutual
/-- Equality of types is decidable. -/
def decEq : (a b : Ty) → Decidable (a = b)
  | scalar a, scalar b => if h : a = b then .isTrue (by rw [h]) else .isFalse (by simp [h])
  | pointer a, pointer b =>
      match decEq a b with
      | .isTrue h => .isTrue (by rw [h])
      | .isFalse h => .isFalse (by simp [h])
  | signature a as av, signature b bs bv =>
      match decEq a b, decEqParams as bs with
      | .isTrue h, .isTrue hs =>
          if hv : av = bv then .isTrue (by rw [h, hs, hv]) else .isFalse (by simp [hv])
      | .isFalse h, _ => .isFalse (by simp [h])
      | _, .isFalse hs => .isFalse (by simp [hs])
  | scalar _, pointer _ | scalar _, signature .. | pointer _, scalar _
  | pointer _, signature .. | signature .., scalar _ | signature .., pointer _ =>
      .isFalse (by simp)

/-- Equality of lists of types is decidable. -/
def decEqParams : (a b : List Ty) → Decidable (a = b)
  | [], [] => .isTrue rfl
  | [], _ :: _ | _ :: _, [] => .isFalse (by simp)
  | a :: as, b :: bs =>
      match decEq a b, decEqParams as bs with
      | .isTrue h, .isTrue hs => .isTrue (by rw [h, hs])
      | .isFalse h, _ => .isFalse (by simp [h])
      | _, .isFalse hs => .isFalse (by simp [hs])
end

instance : DecidableEq Ty := decEq

/-! ## Text -/

mutual
/-- The spelling of a type. -/
def text : Ty → String
  | scalar name => name
  | pointer pointee => pointee.text ++ "*"
  | signature result params variadic =>
      result.text ++ " (" ++ ", ".intercalate (texts params ++ if variadic then ["..."] else []) ++
        ")"

/-- The spellings of a list of types. -/
def texts : List Ty → List String
  | [] => []
  | ty :: rest => ty.text :: texts rest
end

/-! ## Function-valued types -/

/-- Whether a type is a signature. -/
def isSignature : Ty → Bool
  | signature .. => true
  | _ => false

/-- The signature that a function-valued type refers to: its own, or that of
the function it points to. -/
def functionType? : Ty → Option Ty
  | signature result params variadic => some (signature result params variadic)
  | pointer (signature result params variadic) => some (signature result params variadic)
  | _ => none

/-- The number of parameters of a signature. -/
def arity? : Ty → Option Nat
  | signature _ params _ => some params.length
  | _ => none

/-- The type behind `depth` pointers to a type. -/
def pointers (depth : Nat) (base : Ty) : Ty :=
  Nat.repeat pointer depth base

end Ty

end CallReach
