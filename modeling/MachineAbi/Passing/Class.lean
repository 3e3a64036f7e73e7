import MachineAbi.Machine.FloatKind
import MachineAbi.Source.TypeId

/-!
# Ways of passing a value

How a parameter or a return value crosses a call, before its machine types are known.
-/

namespace MachineAbi

/-- One machine value that carries a part of a source value. -/
inductive Slot where
  | int (bits : Nat)
  | float (kind : FloatKind)
  | floatVector (len : Nat) (elem : FloatKind)
  | intVector (len bits : Nat)
  /-- A value of this source type, as it is lowered. -/
  | source (t : TypeId)
deriving DecidableEq, Repr

/-- How a parameter is passed. -/
inductive ParamClass where
  | noBits
  /-- As its own machine type. -/
  | byValue
  /-- By its address. A mutable one is a copy that the callee may write to; a caller copy lies among the arguments. -/
  | byReference (isMutable callerCopy : Bool)
  /-- As one integer of its size. -/
  | abiSizedInt
  /-- As several machine values. -/
  | split (slots : List Slot)
  /-- As a pointer and a length. -/
  | slice
  /-- As one other machine value. -/
  | widened (slot : Slot)
  /-- As an array of floats. -/
  | packedArray (elem : FloatKind) (count : Nat)
deriving DecidableEq, Repr

/-- How a value is returned. -/
inductive ReturnClass where
  | noBits
  /-- An error without a payload that takes room: the error code alone. -/
  | errorCode
  | byValue
  /-- Through a hidden pointer, which comes before the parameters. -/
  | sret
  | abiSizedInt
  | split (slots : List Slot)
  | widened (slot : Slot)
  | packedArray (elem : FloatKind) (count : Nat)
deriving DecidableEq, Repr

def ReturnClass.isSret (c : ReturnClass) : Bool := c == .sret

end MachineAbi
