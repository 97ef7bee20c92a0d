import CallReach.Log
import CallReach.Model.Describe
import CallReach.TypeIndex

/-!
# Resolution of call sites

Which functions a call site may invoke besides its static callee:

* `pointerTargets`: a call without a callee may reach every defined function
  of its called type;
* `passedTargets`: a function passed as an argument may be invoked later, and
  so may every defined function of the type of a function-valued operand.

Both look only at well-formed sites; `CallSite.fault?` says what is wrong with
a site that is not.
-/

namespace CallReach

/-! ## Malformed call sites -/

/-- What is inconsistent about a call site. -/
inductive SiteFault where
  /-- The callee is not a function. -/
  | calleeNotFunction (callee : Json)
  /-- There is no callee, and the called type is not a signature. -/
  | missingSignature
  /-- The argument at a position is neither a function nor an operand. -/
  | badArgument (position : Nat)
deriving DecidableEq

/-- The wording of a fault. -/
def SiteFault.reason : SiteFault → String
  | calleeNotFunction callee => "callee " ++ callee.literal ++ " is not a function"
  | missingSignature => "indirect call without a function type"
  | badArgument position =>
      "argument " ++ toString position ++ " is neither a function reference nor an operand"

/-- Whether an argument is neither a function nor an operand. -/
def Argument.isOther : Argument → Bool
  | other _ => true
  | _ => false

/-- What is wrong with the arguments of a call, if anything. -/
def argumentFault? (arguments : List Argument) : Option SiteFault :=
  (arguments.findIdx? (·.isOther)).map .badArgument

/-- What is wrong with a call site, if anything.  The callee comes before the
arguments. -/
def CallSite.fault? (site : CallSite) : Option SiteFault :=
  match site.callee with
  | .other callee => some (.calleeNotFunction callee)
  | .absent =>
      if (site.calledType.map Ty.isSignature).getD false then argumentFault? site.arguments
      else some .missingSignature
  | .function _ => argumentFault? site.arguments

/-- A call site that is malformed, and why. -/
structure MalformedSite where
  site : SiteId
  fault : SiteFault
deriving DecidableEq

/-- The wording of the fault of a call site. -/
def MalformedSite.message (m : Model) (bad : MalformedSite) : String :=
  "Malformed call site " ++ m.describeSite bad.site ++ ": " ++ bad.fault.reason

/-! ## Candidates of one call site -/

/-- The possible targets of an indirect call. -/
def CallSite.pointerTargets (index : TypeIndex) (site : CallSite) : FunctionSet :=
  match site.callee, site.calledType with
  | .absent, some type => index.lookup type
  | _, _ => []

/-- The functions that one argument may stand for. -/
def Argument.candidates (m : Model) (index : TypeIndex) : Argument → FunctionSet
  | ref f => if m.isDeclaration f then [] else [f]
  | operand type _ => (type.functionType?.map index.lookup).getD []
  | other _ => []

/-- The functions that are passed, or may be passed, as arguments. -/
def CallSite.passedTargets (m : Model) (index : TypeIndex) (site : CallSite) :
    FunctionSet :=
  site.arguments.foldl (fun found argument => m.union found (argument.candidates m index)) []

/-- The line for an indirect call that no defined function can answer. -/
def unansweredLine (m : Model) (index : TypeIndex) (id : SiteId) (site : CallSite) : Log :=
  if site.isIndirect && (site.pointerTargets index).isEmpty then
    let type := match site.calledType with
      | some type => type.text
      | none => "None"
    [⟨.debug, .resolution, m.describeSite id ++ ": no defined function of type " ++ type⟩]
  else []

/-! ## Candidates of one function -/

/-- The candidates of a list of call sites, added to a set.  The first
malformed site ends the search. -/
def candidatesFrom (m : Model) (index : TypeIndex) (callbacks : Bool)
    (found : FunctionSet) : List (SiteId × CallSite) → Except MalformedSite FunctionSet
  | [] => .ok found
  | (id, site) :: rest =>
      match site.fault? with
      | some fault => .error ⟨id, fault⟩
      | none =>
          let found := m.union found (site.pointerTargets index)
          let found := if callbacks then m.union found (site.passedTargets m index) else found
          candidatesFrom m index callbacks found rest

/-- The functions that a function may invoke indirectly; with `callbacks` those
that it passes as arguments count too. -/
def Model.candidates (m : Model) (index : TypeIndex) (callbacks : Bool)
    (f : FunctionId) : Except MalformedSite FunctionSet :=
  candidatesFrom m index callbacks [] (m.sites f)

/-- The lines of the search for a function's candidates, which ends at the
first malformed site. -/
def Model.resolutionLog (m : Model) (index : TypeIndex) (f : FunctionId) : Log :=
  ((m.sites f).takeWhile fun (_, site) => site.fault?.isNone).flatMap fun (id, site) =>
    unansweredLine m index id site

end CallReach
