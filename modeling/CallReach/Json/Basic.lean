import CallReach.Decimal.Shortest
import CallReach.Text.Wide

/-!
# JSON values

The values of the configuration format, which are also the values that may
stand where a function or an operand is expected.  Integers and floating point
numbers are kept apart, an object keeps the order of its members, and texts are
wide: a half of a surrogate pair stays what it is.
`Json.literal` is the text that messages show.
-/

namespace CallReach

open Decimal Text

/-- A JSON value. -/
inductive Json where
  | null
  | bool (value : Bool)
  | int (value : Int)
  | float (value : Binary64)
  | str (value : Wide)
  | arr (items : List Json)
  | obj (members : List (Wide × Json))

namespace Json

instance : Inhabited Json := ⟨null⟩

/-! ## Equality -/

mutual
/-- Equality of values is decidable. -/
def decEq : (a b : Json) → Decidable (a = b)
  | null, null => .isTrue rfl
  | bool a, bool b => if h : a = b then .isTrue (by rw [h]) else .isFalse (by simp [h])
  | int a, int b => if h : a = b then .isTrue (by rw [h]) else .isFalse (by simp [h])
  | float a, float b => if h : a = b then .isTrue (by rw [h]) else .isFalse (by simp [h])
  | str a, str b => if h : a = b then .isTrue (by rw [h]) else .isFalse (by simp [h])
  | arr a, arr b =>
      match decEqItems a b with
      | .isTrue h => .isTrue (by rw [h])
      | .isFalse h => .isFalse (by simp [h])
  | obj a, obj b =>
      match decEqMembers a b with
      | .isTrue h => .isTrue (by rw [h])
      | .isFalse h => .isFalse (by simp [h])
  | null, bool _ | null, int _ | null, float _ | null, str _ | null, arr _ | null, obj _
  | bool _, null | bool _, int _ | bool _, float _ | bool _, str _ | bool _, arr _ | bool _, obj _
  | int _, null | int _, bool _ | int _, float _ | int _, str _ | int _, arr _ | int _, obj _
  | float _, null | float _, bool _ | float _, int _ | float _, str _ | float _, arr _
  | float _, obj _
  | str _, null | str _, bool _ | str _, int _ | str _, float _ | str _, arr _ | str _, obj _
  | arr _, null | arr _, bool _ | arr _, int _ | arr _, float _ | arr _, str _ | arr _, obj _
  | obj _, null | obj _, bool _ | obj _, int _ | obj _, float _ | obj _, str _ | obj _, arr _ =>
      .isFalse (by simp)

/-- Equality of lists of values is decidable. -/
def decEqItems : (a b : List Json) → Decidable (a = b)
  | [], [] => .isTrue rfl
  | [], _ :: _ | _ :: _, [] => .isFalse (by simp)
  | a :: as, b :: bs =>
      match decEq a b, decEqItems as bs with
      | .isTrue h, .isTrue hs => .isTrue (by rw [h, hs])
      | .isFalse h, _ => .isFalse (by simp [h])
      | _, .isFalse hs => .isFalse (by simp [hs])

/-- Equality of lists of members is decidable. -/
def decEqMembers : (a b : List (Wide × Json)) → Decidable (a = b)
  | [], [] => .isTrue rfl
  | [], _ :: _ | _ :: _, [] => .isFalse (by simp)
  | (k, a) :: as, (l, b) :: bs =>
      if hk : k = l then
        match decEq a b, decEqMembers as bs with
        | .isTrue h, .isTrue hs => .isTrue (by rw [hk, h, hs])
        | .isFalse h, _ => .isFalse (by simp [h])
        | _, .isFalse hs => .isFalse (by simp [hs])
      else .isFalse (by simp [hk])
end

instance : DecidableEq Json := decEq

/-! ## Members -/

/-- The value of a member, when the value is an object that has it. -/
def get? : Json → String → Option Json
  | obj members, key => members.lookup (.whole key)
  | _, _ => none

/-- Members with a key set: a key that is there keeps its place and takes the
new value. -/
def setMember (key : Wide) (value : Json) : List (Wide × Json) → List (Wide × Json)
  | [] => [(key, value)]
  | (k, v) :: rest => if k = key then (k, value) :: rest else (k, v) :: setMember key value rest

/-! ## Text of a value in a message -/

mutual
/-- A value as messages show it. -/
def literal : Json → String
  | null => "None"
  | bool true => "True"
  | bool false => "False"
  | int n => toString n
  | float x => x.text
  | str s => s.quoted
  | arr items => "[" ++ ", ".intercalate (literals items) ++ "]"
  | obj members => "\x7b" ++ ", ".intercalate (memberLiterals members) ++ "\x7d"

/-- The texts of a list of values. -/
def literals : List Json → List String
  | [] => []
  | item :: rest => literal item :: literals rest

/-- The texts of a list of members. -/
def memberLiterals : List (Wide × Json) → List String
  | [] => []
  | (key, value) :: rest => (key.quoted ++ ": " ++ literal value) :: memberLiterals rest
end

/-- A value as it is printed among arguments: a text is bare. -/
def plain : Json → String
  | str s => s.shown
  | value => value.literal

end Json

end CallReach
