import MachineAbi.Call.Attributes
import MachineAbi.Passing.Class

/-!
# Machine signatures

A function type after classification: its machine parameters, hidden pointers first, its machine return type, and the
attributes of each.
-/

namespace MachineAbi

/-- What a machine parameter is there for. -/
inductive ParamOrigin where
  /-- The hidden pointer behind which the result is returned. -/
  | returnPointer
  /-- The hidden pointer to an error trace. -/
  | errorTrace
  /-- Part `part` of source parameter `index`. -/
  | source (index part : Nat)
deriving DecidableEq, Repr

structure MachineParam where
  ty : Handle
  origin : ParamOrigin
  attrs : AttrSet
deriving DecidableEq, Repr

structure Signature where
  cc : CallConv
  params : List MachineParam
  ret : Handle
  retAttrs : AttrSet
  /-- One class for each source parameter. -/
  paramClasses : List ParamClass
  returnClass : ReturnClass
  varargs : Bool
deriving DecidableEq, Repr

namespace Signature

/-- Whether the result is returned behind a hidden pointer. -/
def sret (s : Signature) : Bool := s.returnClass.isSret

/-- The machine parameters that carry source parameter `index`. -/
def sourceParams (s : Signature) (index : Nat) : List MachineParam :=
  s.params.filter fun p =>
    match p.origin with
    | .source i _ => i == index
    | _ => false

end Signature

end MachineAbi
